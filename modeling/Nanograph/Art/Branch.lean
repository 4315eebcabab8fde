import Nanograph.Foundation.Bytes
import Nanograph.Foundation.Parallel

/-!
# The children of inner nodes

The four sizes of inner nodes of `nanograph-art/src/node.rs` and what
`nanograph-art/src/tree.rs` does with their children: a `Branch` is a node without its
header. Of the arrays of a `Node4` and a `Node16` only the used part is kept, so the number
of children is its length; no function reads behind it. A `Node48` has 256 indices and 48
slots, a `Node256` has 256 slots.
-/

namespace Nanograph.Art

open Foundation

/-- The children of an inner node. -/
inductive Branch (α : Type) where
  | node4 (keys : List UInt8) (children : List (Option α))
  | node16 (keys : List UInt8) (children : List (Option α))
  | node48 (numChildren : Nat) (childIndex : List UInt8) (children : List (Option α))
  | node256 (numChildren : Nat) (children : List (Option α))

/-- The sizes of inner nodes. -/
inductive NodeKind where
  | node4
  | node16
  | node48
  | node256

/-- An inner node: its children, with the compressed path and the value of its header. -/
structure InnerNode (V α : Type) where
  partialKey : Bytes
  value : Option V
  branch : Branch α

/-- The bytes in ascending order. -/
def allBytes : List UInt8 := (List.range 256).map UInt8.ofNat

/-- The slot that an index array gives to a byte; 255 stands for none. -/
def slotOf (childIndex : List UInt8) (keyByte : UInt8) : Option Nat :=
  let idx := childIndex.getD keyByte.toNat 255
  if idx ≠ 255 then some idx.toNat else none

/-- The halving loop of a `Node16` over its sorted keys. -/
def searchByte (keys : List UInt8) (keyByte : UInt8) : Nat → Nat → Nat → Option Nat
  | 0, _, _ => none
  | fuel + 1, left, right =>
    if left < right then
      let mid := (left + right) / 2
      let midKey := keys.getD mid 0
      if midKey < keyByte then searchByte keys keyByte fuel (mid + 1) right
      else if midKey > keyByte then searchByte keys keyByte fuel left mid
      else some mid
    else none

/-- The index array without any slot. -/
def emptyIndex : List UInt8 := List.replicate 256 255

/-- An index array in which every key has its position. -/
def indexOfKeys (keys : List UInt8) : List UInt8 :=
  keys.zipIdx.foldl (fun childIndex entry => childIndex.set entry.1.toNat (UInt8.ofNat entry.2))
    emptyIndex

namespace Branch

variable {α : Type}

/-- The size of a node. -/
def kind : Branch α → NodeKind
  | .node4 .. => .node4
  | .node16 .. => .node16
  | .node48 .. => .node48
  | .node256 .. => .node256

/-- Find a child by key byte. -/
def findChild : Branch α → UInt8 → Option α
  | .node4 keys children, keyByte =>
    ((keys.findIdx? (· = keyByte)).bind (children[·]?)).join
  | .node16 keys children, keyByte =>
    ((searchByte keys keyByte (keys.length + 1) 0 keys.length).bind (children[·]?)).join
  | .node48 _ childIndex children, keyByte =>
    ((slotOf childIndex keyByte).bind (children[·]?)).join
  | .node256 _ children, keyByte => (children[keyByte.toNat]?).join

def growNode4ToNode16 (keys : List UInt8) (children : List (Option α)) : Branch α :=
  .node16 keys children

/-- Grow a `Node16` to a `Node48`: the children keep their positions. -/
def growNode16ToNode48 (keys : List UInt8) (children : List (Option α)) : Branch α :=
  .node48 keys.length (indexOfKeys keys) (children ++ List.replicate (48 - keys.length) none)

/-- Grow a `Node48` to a `Node256`: every byte gets the child in its slot. -/
def growNode48ToNode256 (numChildren : Nat) (childIndex : List UInt8)
    (children : List (Option α)) : Branch α :=
  .node256 numChildren
    (allBytes.map fun byte => ((slotOf childIndex byte).bind (children[·]?)).join)

/-- A smaller node with sorted keys whose header says how many entries are used. -/
def packed (numChildren : Nat) (entries : List (UInt8 × Option α)) : List UInt8 × List (Option α) :=
  ((entries ++ List.replicate numChildren (0, none)).take numChildren).unzip

def shrinkNode16ToNode4 (keys : List UInt8) (children : List (Option α)) : Branch α :=
  let kept := packed keys.length ((keys.zip children).filter (·.2.isSome))
  .node4 kept.1 kept.2

def shrinkNode48ToNode16 (numChildren : Nat) (childIndex : List UInt8)
    (children : List (Option α)) : Branch α :=
  let kept := packed numChildren (allBytes.filterMap fun byte =>
    (slotOf childIndex byte).map fun idx => (byte, (children[idx]?).join))
  .node16 kept.1 kept.2

def shrinkNode256ToNode48 (numChildren : Nat) (children : List (Option α)) : Branch α :=
  let present := allBytes.filter fun byte => ((children[byte.toNat]?).join).isSome
  .node48 numChildren (indexOfKeys present)
    (present.map (fun byte => (children[byte.toNat]?).join) ++
      List.replicate (48 - present.length) none)

end Branch

namespace InnerNode

variable {V α : Type}

/-- What a node becomes before a child is added, with the size it is grown to; every conversion
clones the header. -/
def grow (node : InnerNode V α) : Option (NodeKind × InnerNode V α) :=
  match node.branch with
  | .node4 keys children =>
    if keys.length < 4 then none
    else some (.node16, { node with branch := .growNode4ToNode16 keys children })
  | .node16 keys children =>
    if keys.length < 16 then none
    else some (.node48, { node with branch := .growNode16ToNode48 keys children })
  | .node48 numChildren childIndex children =>
    if numChildren < 48 then none
    else some (.node256, { node with branch := .growNode48ToNode256 numChildren childIndex children })
  | .node256 .. => none

/-- What a node becomes after a child was removed, with the size it is shrunk to. -/
def shrink (node : InnerNode V α) : Option (NodeKind × InnerNode V α) :=
  match node.branch with
  | .node4 .. => none
  | .node16 keys children =>
    if keys.length ≤ 4 then
      some (.node4, { node with branch := .shrinkNode16ToNode4 keys children })
    else none
  | .node48 numChildren childIndex children =>
    if numChildren ≤ 16 then
      some (.node16, { node with branch := .shrinkNode48ToNode16 numChildren childIndex children })
    else none
  | .node256 numChildren children =>
    if numChildren ≤ 48 then
      some (.node48, { node with branch := .shrinkNode256ToNode48 numChildren children })
    else none

end InnerNode

end Nanograph.Art
