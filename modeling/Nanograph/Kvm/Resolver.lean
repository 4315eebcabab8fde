import Nanograph.Core.Object
import Nanograph.Foundation.Lineage
import Nanograph.Foundation.Machine
import Nanograph.Foundation.Separated

/-!
# The object path resolver

`nanograph-kvm/src/cache/resolver.rs`: objects under paths of names with dots between them. Every
object is a node that knows its parent and its children, and a map has the node of every path.
Identifiers come from the caller, from the ones that were given back, or from a counter that
wraps around. Following parents that form a cycle never ends.
-/

namespace Nanograph.Kvm

open Function Nanograph.Core Foundation

/-- The kinds of objects that have a path. -/
inductive ObjectType where
  | ofNamespace
  | ofTable
  | ofIndex
  | ofFunction

/-- A node of the resolver. -/
structure PathNode where
  objectId : ObjectId
  objectName : List Char
  objectType : ObjectType
  parent : Option ObjectId
  children : List ObjectId

abbrev PathNodes := ObjectId → Option PathNode

abbrev PathMap := List Char → Option ObjectId

/-- Nodes, paths, identifiers that were given back, and the counter. -/
structure ObjectPathResolver where
  resolverNodes : PathNodes
  resolverPaths : PathMap
  resolverAvailableNodes : List ObjectId
  resolverNextId : ObjectId

inductive ResolverError where
  /-- Says "Empty path". -/
  | emptyPath
  /-- Says "Path already exists". -/
  | pathExists (path : List Char)
  /-- Says "Path not found". -/
  | pathNotFound (path : List Char)
  /-- Says "Node not found". -/
  | nodeNotFound
  /-- Says "Cannot remove node with children". -/
  | nodeWithChildren (path : List Char)
  /-- Says "Source path not found". -/
  | sourceNotFound (path : List Char)
  /-- Says "Empty destination path". -/
  | emptyDestination
  /-- Says "Parent path not found". -/
  | parentNotFound (path : List Char)
  /-- Says "Destination path already exists". -/
  | destinationExists (path : List Char)
  | panic
  /-- The call does not return. -/
  | endless
deriving DecidableEq

def PathNodes.modify (nodes : PathNodes) (id : ObjectId) (change : PathNode → PathNode) :
    PathNodes :=
  update nodes id ((nodes id).map change)

namespace ObjectPathResolver

def parsePath (path : List Char) : List (List Char) := pieces '.' path

def buildPath (parts : List (List Char)) : List Char := joined '.' parts

/-- A resolver without objects. -/
def default : ObjectPathResolver := ⟨fun _ => none, fun _ => none, [], ⟨0⟩⟩

/-- The least identifier that was given back, or the next one of the counter. -/
def getNextObjectId (resolver : ObjectPathResolver) : ObjectId × ObjectPathResolver :=
  match (resolver.resolverAvailableNodes.map (·.raw.toNat)).min? with
  | some least =>
    let id : ObjectId := ⟨UInt32.ofNat least⟩
    (id, { resolver with
      resolverAvailableNodes := resolver.resolverAvailableNodes.filter (· ≠ id) })
  | none =>
    (resolver.resolverNextId, { resolver with resolverNextId := ⟨resolver.resolverNextId.raw + 1⟩ })

/-- The identifier of a new node: the last part of a path gets the one of the caller, if there is
one. -/
def idForPart (resolver : ObjectPathResolver) (leaf : Option ObjectId) (isLeaf : Bool) :
    ObjectId × ObjectPathResolver :=
  match leaf, isLeaf with
  | some objectId, true => (objectId, resolver)
  | _, _ => resolver.getNextObjectId

/-- Put a node behind the children of its parent. -/
def attach (nodes : PathNodes) (id : ObjectId) (parent : Option ObjectId) : PathNodes :=
  match parent with
  | some parentId => nodes.modify parentId fun node =>
    { node with children := node.children ++ [id] }
  | none => nodes

/-- Take a node out of the children of its parent. -/
def detach (nodes : PathNodes) (id : ObjectId) (parent : Option ObjectId) : PathNodes :=
  match parent with
  | some parentId => nodes.modify parentId fun node =>
    { node with children := node.children.filter (· ≠ id) }
  | none => nodes

/-- Make a node below a parent and register its path. -/
def placeNode (resolver : ObjectPathResolver) (id : ObjectId) (name : List Char)
    (objectType : ObjectType) (parent : Option ObjectId) (path : List Char) : ObjectPathResolver :=
  { resolver with
    resolverNodes := attach
      (update resolver.resolverNodes id (some ⟨id, name, objectType, parent, []⟩)) id parent
    resolverPaths := update resolver.resolverPaths path (some id) }

/-- The node and the path that were reached. -/
structure Cursor where
  parent : Option ObjectId
  path : List Char

/-- The path of a part behind the cursor. -/
def Cursor.pathOf (cursor : Cursor) (part : List Char) : List Char :=
  if cursor.path = [] then part else cursor.path ++ '.' :: part

/-- Walk along the parts of a path and make the nodes that are missing. -/
def placeParts (leaf : Option ObjectId) (objectType : ObjectType) :
    ObjectPathResolver → Cursor → List (List Char) → Option ObjectId × ObjectPathResolver
  | resolver, cursor, [] => (cursor.parent, resolver)
  | resolver, cursor, part :: rest =>
    let path := cursor.pathOf part
    match resolver.resolverPaths path with
    | some existing => placeParts leaf objectType resolver ⟨some existing, path⟩ rest
    | none =>
      let (id, resolver) := resolver.idForPart leaf rest.isEmpty
      let nodeType := if rest.isEmpty then objectType else .ofNamespace
      placeParts leaf objectType (resolver.placeNode id part nodeType cursor.parent path)
        ⟨some id, path⟩ rest

/-- Register an object under a path. -/
def setPathObject (resolver : ObjectPathResolver) (path : List Char) (objectId : ObjectId)
    (objectType : ObjectType) : ObjectPathResolver :=
  (placeParts (some objectId) objectType resolver ⟨none, []⟩ (parsePath path)).2

/-- Make an object under a path. -/
def addPath (resolver : ObjectPathResolver) (path : List Char) (objectType : ObjectType) :
    Except ResolverError ObjectId × ObjectPathResolver :=
  if parsePath path = [] then (.error .emptyPath, resolver)
  else if (resolver.resolverPaths path).isSome then (.error (.pathExists path), resolver)
  else
    match placeParts none objectType resolver ⟨none, []⟩ (parsePath path) with
    | (some id, resolver) => (.ok id, resolver)
    | (none, resolver) => (.error .panic, resolver)

/-- Take a node and its path away and keep the identifier for later. -/
def removeNode (resolver : ObjectPathResolver) (path : List Char) (id : ObjectId)
    (parent : Option ObjectId) : ObjectPathResolver :=
  { resolver with
    resolverNodes := update (detach resolver.resolverNodes id parent) id none
    resolverPaths := update resolver.resolverPaths path none
    resolverAvailableNodes :=
      if id ∈ resolver.resolverAvailableNodes then resolver.resolverAvailableNodes
      else id :: resolver.resolverAvailableNodes }

/-- Remove an object without children. -/
def removePath (resolver : ObjectPathResolver) (path : List Char) :
    Except ResolverError Unit × ObjectPathResolver :=
  match resolver.resolverPaths path with
  | none => (.error (.pathNotFound path), resolver)
  | some id =>
    match resolver.resolverNodes id with
    | none => (.error .nodeNotFound, resolver)
    | some node =>
      if node.children ≠ [] then (.error (.nodeWithChildren path), resolver)
      else (.ok (), resolver.removeNode path id node.parent)

/-- The parts of the path of a node from itself to the root, or `none` if the way never ends. A
node on the way may be missing. -/
def nodeParts (nodes : PathNodes) : Nat → ObjectId → Option (Option (List (List Char)))
  | 0, _ => none
  | fuel + 1, id =>
    match nodes id with
    | none => some none
    | some node =>
      match node.parent with
      | none => some (some [node.objectName])
      | some parent => do
        let parts ← nodeParts nodes fuel parent
        return parts.map (node.objectName :: ·)

/-- A way without a cycle is not longer than there are identifiers. -/
def stepsWithoutCycle : Nat := UInt32.size

def getNodePath (nodes : PathNodes) (id : ObjectId) : Option (Option (List Char)) :=
  (nodeParts nodes stepsWithoutCycle id).map (·.map (buildPath ·.reverse))

/-- Register the paths of a node and of all below it. -/
def updateDescendantPaths (nodes : PathNodes) : Nat → PathMap → ObjectId → Option PathMap
  | 0, _, _ => none
  | fuel + 1, paths, id => do
    let path ← getNodePath nodes id
    let paths := match path with
      | some path => update paths path (some id)
      | none => paths
    match nodes id with
    | none => return paths
    | some node => node.children.foldlM (updateDescendantPaths nodes fuel) paths

/-- A move that can be made: the node, its new parent and its new name. -/
structure Move where
  id : ObjectId
  node : PathNode
  newParent : Option ObjectId
  nodeName : List Char

def findParent (resolver : ObjectPathResolver) (path : List Char) :
    Except ResolverError (Option ObjectId) :=
  if path = [] then .ok none
  else
    match resolver.resolverPaths path with
    | some id => .ok (some id)
    | none => .error (.parentNotFound path)

def checkMove (resolver : ObjectPathResolver) (source target : List Char) :
    Except ResolverError Move :=
  match resolver.resolverPaths source, (parsePath target).getLast? with
  | none, _ => .error (.sourceNotFound source)
  | some _, none => .error .emptyDestination
  | some id, some nodeName => do
    let newParent ← resolver.findParent (buildPath (parsePath target).dropLast)
    if (resolver.resolverPaths target).isSome then .error (.destinationExists target)
    else
      match resolver.resolverNodes id with
      | some node => return ⟨id, node, newParent, nodeName⟩
      | none => .error .panic

/-- Hang a node below its new parent. -/
def relink (nodes : PathNodes) (move : Move) : PathNodes :=
  (attach (detach nodes move.id move.node.parent) move.id move.newParent).modify move.id fun node =>
    { node with objectName := move.nodeName, parent := move.newParent }

/-- The paths without the one of a node and the ones below it. -/
def withoutBelow (paths : PathMap) (source : List Char) : PathMap := fun path =>
  if path = source ∨ source ++ ['.'] <+: path then none else paths path

/-- Move an object with all below it. -/
def movePath (resolver : ObjectPathResolver) (source target : List Char) :
    Except ResolverError Unit × ObjectPathResolver :=
  match resolver.checkMove source target with
  | .error error => (.error error, resolver)
  | .ok move =>
    let nodes := relink resolver.resolverNodes move
    let paths := withoutBelow resolver.resolverPaths source
    match updateDescendantPaths nodes stepsWithoutCycle paths move.id with
    | some paths => (.ok (), { resolver with resolverNodes := nodes, resolverPaths := paths })
    | none => (.error .endless, { resolver with resolverNodes := nodes, resolverPaths := paths })

end ObjectPathResolver

end Nanograph.Kvm
