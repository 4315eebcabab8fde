import Nanograph.BTree.Shape

/-!
# Saving a tree and loading it again

The persistence manager of `nanograph-btree/src/persistence.rs` and the two
operations of the tree that use it. A node is saved in a file of its own, named
after its identifier, and the manifest is one more file. Writing a file replaces
what it held; serialization is taken to return the value that was written.
-/

namespace Nanograph.BTree

open List BPlusTree Foundation

variable {K V : Type}

/-- Serialized node format. -/
inductive SerializedNode (K V : Type) where
  | leaf (id : BTreeNodeId) (parent : Option BTreeNodeId) (entries : List (K × V))
      (next prev : Option BTreeNodeId)
  | internal (id : BTreeNodeId) (parent : Option BTreeNodeId) (keys : List K)
      (children : List BTreeNodeId)

/-- Tree metadata stored in the manifest. -/
structure TreeMetadata where
  version : Nat
  rootId : BTreeNodeId
  nextNodeId : Nat
  leftmostLeaf : Option BTreeNodeId
  nodeCount : Nat

/-- The files of the persistence manager: node files by identifier, and the manifest. -/
structure BTreePersistence (K V : Type) where
  nodeFiles : AList fun _ : BTreeNodeId => SerializedNode K V
  manifest : Option TreeMetadata

namespace SerializedNode

/-- The serialized form of a node. -/
def ofNode : BPlusTreeNode K V → SerializedNode K V
  | .leaf node => .leaf node.id node.parent node.entries node.next node.prev
  | .internal node => .internal node.id node.parent node.keys node.children

/-- The node a serialized form stands for. -/
def toNode : SerializedNode K V → BPlusTreeNode K V
  | .leaf id parent entries next prev => .leaf ⟨id, entries, next, prev, parent⟩
  | .internal id parent keys children => .internal ⟨id, keys, children, parent⟩

@[simp] theorem toNode_ofNode (node : BPlusTreeNode K V) : (ofNode node).toNode = node := by
  cases node <;> rfl

end SerializedNode

namespace BTreePersistence

/-- A base directory without files. -/
def empty : BTreePersistence K V := ⟨∅, none⟩

def saveNode (store : BTreePersistence K V) (node : BPlusTreeNode K V) : BTreePersistence K V :=
  { store with nodeFiles := store.nodeFiles.insert node.id (.ofNode node) }

def loadNode (store : BTreePersistence K V) (nodeId : BTreeNodeId) :
    Except Fault (BPlusTreeNode K V) :=
  match store.nodeFiles.lookup nodeId with
  | some serialized => .ok serialized.toNode
  | none => .error (.error (.internal "Failed to open file: PathMissing"))

def saveManifest (store : BTreePersistence K V) (metadata : TreeMetadata) : BTreePersistence K V :=
  { store with manifest := some metadata }

def loadManifest (store : BTreePersistence K V) : Option TreeMetadata := store.manifest

/-- Save nodes one after the other. -/
def saveNodes (store : BTreePersistence K V) (nodes : List (BPlusTreeNode K V)) :
    BTreePersistence K V :=
  nodes.foldl saveNode store

variable (store : BTreePersistence K V) {node : BPlusTreeNode K V}

theorem loadNode_saveNode (node : BPlusTreeNode K V) :
    (store.saveNode node).loadNode node.id = .ok node := by
  simp [loadNode, saveNode]

/-- A node that no later node overwrites is loaded as it was saved, whatever the
order of the others. -/
theorem loadNode_saveNodes {nodes : List (BPlusTreeNode K V)} (distinct : (nodes.map (·.id)).Nodup)
    (saved : node ∈ nodes) : (store.saveNodes nodes).loadNode node.id = .ok node := by
  -- The nodes behind the saved one leave its file alone.
  have untouched : ∀ (rest : List (BPlusTreeNode K V)) (files : BTreePersistence K V),
      node.id ∉ rest.map (·.id) → (files.saveNodes rest).loadNode node.id =
        files.loadNode node.id := by
    intro rest
    induction rest with
    | nil => exact fun _ _ => rfl
    | cons other rest ih =>
      intro files absent
      rw [map_cons, mem_cons, not_or] at absent
      refine (ih _ absent.2).trans ?_
      simp [loadNode, saveNode, AList.lookup_insert_ne absent.1]
  obtain ⟨front, back, rfl⟩ := append_of_mem saved
  rw [map_append, map_cons] at distinct
  have last : node.id ∉ back.map (·.id) :=
    (nodup_cons.mp (nodup_append.mp distinct).2.1).1
  rw [saveNodes, foldl_append, foldl_cons]
  exact (untouched back _ last).trans (loadNode_saveNode _ node)

end BTreePersistence

namespace BPlusTree

/-- The tree metadata that goes into the manifest. -/
def metadata (tree : BPlusTree K V) : TreeMetadata where
  version := 1
  rootId := tree.rootId
  nextNodeId := tree.nextNodeId
  leftmostLeaf := tree.leftmostLeaf
  nodeCount := tree.nodes.keys.length

/-- The tree with only its root in memory. -/
def load (config : BPlusTreeConfig) (metadata : TreeMetadata) (root : BPlusTreeNode K V) :
    BPlusTree K V where
  config := config
  rootId := metadata.rootId
  nodes := AList.singleton metadata.rootId root
  nextNodeId := metadata.nextNodeId
  leftmostLeaf := metadata.leftmostLeaf

/-- Save a tree that is a single empty leaf. -/
def saveEmpty (tree : BPlusTree K V) (store : BTreePersistence K V) : BTreePersistence K V :=
  (store.saveNode (.newLeaf ⟨0⟩)).saveManifest tree.metadata

/-- Create a B+Tree with persistence: load the saved tree, or save a new one. -/
def withPersistence (config : BPlusTreeConfig) (store : BTreePersistence K V) :
    Except Fault (BPlusTree K V × BTreePersistence K V) :=
  match store.loadManifest with
  | some metadata =>
    match store.loadNode metadata.rootId with
    | .ok root => .ok (load config metadata root, store)
    | .error fault => .error fault
  | none => .ok (new config, (new config).saveEmpty store)

def flush (tree : BPlusTree K V) (store : BTreePersistence K V) : BTreePersistence K V :=
  (store.saveNodes (tree.nodes.entries.map (·.2))).saveManifest tree.metadata

end BPlusTree

/-- What happens to a tree with persistence: calls on it, flushes, and a restart that
creates it again over the same files. -/
inductive PersistentCall (K V : Type) where
  | call (input : TreeCall K V)
  | flush
  | reopen

/-- A tree and its files. -/
structure PersistentTree (K V : Type) where
  tree : BPlusTree K V
  store : BTreePersistence K V

namespace PersistentTree

/-- A tree created with persistence in an empty directory. -/
def created (config : BPlusTreeConfig) : PersistentTree K V where
  tree := BPlusTree.new config
  store := (BPlusTree.new config).saveEmpty .empty

/-- Run one step of a tree with persistence. Of the calls on the tree only a clear
writes files. -/
def step [LinearOrder K] :
    Machine (PersistentTree K V) (PersistentCall K V) (Except Fault (TreeAnswer V))
  | state, .call input =>
    let (answer, changed) := state.tree.call input
    (answer,
      { tree := changed
        store := if input matches .clear then changed.saveEmpty state.store else state.store })
  | state, .flush => (.ok .done, { state with store := state.tree.flush state.store })
  | state, .reopen =>
    match withPersistence state.tree.config state.store with
    | .ok (tree, store) => (.ok .done, { tree, store })
    | .error fault => (.error fault, state)

/-- Flushing the tree and creating it again over its files gives a tree that answers
every get alike. -/
def ReloadAgrees [LinearOrder K] (state : PersistentTree K V) : Prop :=
  ∃ loaded files,
    withPersistence state.tree.config (state.tree.flush state.store) = .ok (loaded, files) ∧
      ∀ key, (loaded.call (.get key)).1 = (state.tree.call (.get key)).1

end PersistentTree

/-- The root is an internal node and no other node is in memory. -/
structure Stub (tree : BPlusTree K V) (root : InternalNode K) : Prop where
  nodes : tree.nodes = AList.singleton tree.rootId (.internal root)
  rooted : root.id = tree.rootId
  outside : tree.rootId ∉ root.children

/-- A sound tree, or what a restart leaves of one. -/
def Usable [LinearOrder K] (config : BPlusTreeConfig) (tree : BPlusTree K V) : Prop :=
  tree.config = config ∧ ((∃ leaves levels, Sound tree leaves levels) ∨ ∃ root, Stub tree root)

/-- The manifest and the root it names can be loaded, and make up a usable tree. -/
def Saved [LinearOrder K] (config : BPlusTreeConfig) (store : BTreePersistence K V) : Prop :=
  ∃ metadata root, store.loadManifest = some metadata ∧
    store.loadNode metadata.rootId = .ok root ∧ Usable config (load config metadata root)

/-- The levels above a row of leaves end in an internal root. -/
theorem Above.internalRoot {tree : BPlusTree K V} {items : List (Item K)} {level : Level K}
    {upper : List (Level K)} (above : Above tree items (level :: upper)) :
    ∃ root, Placed tree root ∧ root.id = tree.rootId := by
  induction upper generalizing items level with
  | nil =>
    obtain ⟨-, placed, top, -⟩ := above
    obtain ⟨place, rfl, placeEq⟩ := map_eq_singleton_iff.mp top
    exact ⟨place.2, placed place (by simp), congrArg Prod.snd placeEq⟩
  | cons next upper ih => exact ih above.2.2

namespace Stands

variable {tree : BPlusTree K V} {leaves : LeafRow K V} {levels : List (Level K)}

theorem mem_keys {nodeId : BTreeNodeId} : nodeId ∈ tree.nodes.keys ↔ tree.bodyOf nodeId ≠ none := by
  rw [← AList.mem_keys, ← AList.lookup_isSome, Ne, bodyOf_eq_none]
  exact Option.isSome_iff_ne_none

/-- Without levels the root is the only node. -/
theorem keys_alone (stands : Stands tree leaves []) : tree.nodes.keys = [tree.rootId] := by
  have idsEq : leaves.ids = [tree.rootId] := by
    have top := congrArg (List.map Prod.snd) stands.above.1
    simpa [LeafRow.items, LeafRow.ids] using top
  refine perm_singleton.mp ((perm_ext_iff_of_nodup tree.nodes.keys_nodup
    (nodup_singleton _)).mpr fun nodeId => ?_)
  rw [mem_keys, ← idsEq]
  constructor
  · intro present
    simpa [levelIds] using stands.covered nodeId present
  · intro listed
    obtain ⟨place, mem, rfl⟩ := mem_map.mp listed
    simp [stands.stored place mem]

theorem internalRoot (stands : Stands tree leaves levels) (high : levels ≠ []) :
    ∃ root : InternalNode K, tree.bodyOf root.id = some (.internal root) ∧
      root.id = tree.rootId ∧ tree.rootId ∉ root.children := by
  obtain ⟨level, upper, rfl⟩ := exists_cons_of_ne_nil high
  obtain ⟨root, placed, rooted⟩ := stands.above.internalRoot
  refine ⟨root, placed.body, rooted, fun listed => ?_⟩
  have owned := placed.adopted _ listed
  rw [(Above.root stands.above).2] at owned
  cases owned

end Stands

namespace Stub

variable {tree : BPlusTree K V} {root : InternalNode K}

theorem node?_eq (stub : Stub tree root) (nodeId : BTreeNodeId) :
    tree.node? nodeId = if nodeId = tree.rootId then some (.internal root) else none := by
  rw [BPlusTree.node?, stub.nodes]
  split
  next equal =>
    rw [equal]
    exact dlookup_cons_eq _ _ _
  next different =>
    rw [AList.lookup_eq_none]
    simpa [AList.mem_keys, AList.keys, AList.singleton] using different

variable [LinearOrder K]

/-- No leaf is found below a root whose children are not in memory. -/
theorem findLeaf_fails (stub : Stub tree root) (key : K) :
    ∃ fault, findLeaf tree.loopBound tree.rootId key tree = .error fault tree := by
  have bound : tree.loopBound = 2 := by
    rw [loopBound, stub.nodes]
    rfl
  have stored : tree.node? tree.rootId = some (.internal root) := by rw [stub.node?_eq, if_pos rfl]
  rw [bound, findLeaf, run_bind (run_getNode stored)]
  cases chosen : (BPlusTreeNode.internal root : BPlusTreeNode K V).getChildForKey key with
  | none => exact ⟨_, rfl⟩
  | some child =>
    have listed : child ∈ root.children := mem_of_getElem? chosen
    have other : child ≠ tree.rootId := by
      rintro rfl
      exact stub.outside listed
    have missing : tree.node? child = none := by rw [stub.node?_eq, if_neg other]
    exact ⟨_, run_bind_error (run_getNode_missing missing)⟩

/-- Every call but a clear fails, and changes nothing. -/
theorem call_fails (stub : Stub tree root) (input : TreeCall K V) (notClear : input ≠ .clear) :
    ∃ fault, tree.call input = (.error fault, tree) := by
  cases input with
  | clear => exact absurd rfl notClear
  | insert key value | delete key | get key =>
    obtain ⟨fault, failed⟩ := stub.findLeaf_fails key
    refine ⟨fault, ?_⟩
    simp only [BPlusTree.call, answer, BPlusTree.insert, BPlusTree.delete, BPlusTree.get,
      run_bind run_get, run_bind_error failed]

end Stub

section

variable {tree : BPlusTree K V} {root : BPlusTreeNode K V}

/-- A flushed tree has its root on disk. -/
theorem loadNode_flush (keyed : tree.Keyed) (stored : tree.node? tree.rootId = some root)
    (store : BTreePersistence K V) : (tree.flush store).loadNode tree.rootId = .ok root := by
  have ids : (tree.nodes.entries.map (·.2)).map (·.id) = tree.nodes.keys := by
    rw [AList.keys, List.keys, map_map]
    refine map_congr_left fun entry mem => ?_
    exact keyed entry.1 entry.2 (AList.mem_lookup_iff.mpr mem)
  have listed : root ∈ tree.nodes.entries.map (·.2) :=
    mem_map.mpr ⟨⟨tree.rootId, root⟩, AList.mem_lookup_iff.mp stored, rfl⟩
  have loaded := BTreePersistence.loadNode_saveNodes store (ids ▸ tree.nodes.keys_nodup) listed
  rwa [keyed _ _ stored] at loaded

theorem load_alone (stored : tree.node? tree.rootId = some root)
    (alone : tree.nodes.keys = [tree.rootId]) : load tree.config tree.metadata root = tree := by
  obtain ⟨config, rootId, nodes, nextNodeId, leftmostLeaf⟩ := tree
  obtain ⟨entry, entriesEq, keyEq⟩ := map_eq_singleton_iff.mp alone
  have mem : (⟨rootId, root⟩ : Sigma fun _ : BTreeNodeId => BPlusTreeNode K V) ∈
      nodes.entries := AList.mem_lookup_iff.mp stored
  rw [entriesEq, mem_singleton] at mem
  have nodesEq : AList.singleton rootId root = nodes :=
    AList.ext (by rw [entriesEq, ← mem]; rfl)
  simp only [load, metadata, nodesEq]

variable [LinearOrder K] {config : BPlusTreeConfig}

/-- A usable tree has its root in memory. -/
theorem Usable.hasRoot (usable : Usable config tree) :
    tree.Keyed ∧ ∃ root, tree.node? tree.rootId = some root := by
  rcases usable.2 with ⟨leaves, levels, sound⟩ | ⟨root, stub⟩
  · refine ⟨sound.stands.keyed, Option.ne_none_iff_exists'.mp ?_⟩
    rw [Ne, ← bodyOf_eq_none]
    have listed := (Above.root sound.stands.above).1
    rcases mem_append.mp listed with isLeaf | isLevel
    · obtain ⟨item, itemListed, itemEq⟩ := mem_map.mp isLeaf
      obtain ⟨place, mem, rfl⟩ := mem_map.mp itemListed
      rw [← itemEq, sound.stands.stored place mem]
      simp
    · exact sound.stands.above.stored _ isLevel
  · refine ⟨?_, _, stub.node?_eq tree.rootId |>.trans (if_pos rfl)⟩
    intro nodeId node found
    rw [stub.node?_eq] at found
    split at found
    next equal =>
      cases found
      exact stub.rooted.trans equal.symm
    next => cases found

/-- What a restart leaves of a usable tree: the tree itself when its root is its only
node, and a root without children in memory otherwise. -/
theorem Usable.load (usable : Usable config tree) (stored : tree.node? tree.rootId = some root) :
    (tree.nodes.keys = [tree.rootId] ∧ BPlusTree.load config tree.metadata root = tree) ∨
      (tree.nodes.keys ≠ [tree.rootId] ∧ (∃ leaves levels, Sound tree leaves levels) ∧
        ∃ top, Stub (BPlusTree.load config tree.metadata root) top) := by
  obtain ⟨rfl, found⟩ := usable
  by_cases alone : tree.nodes.keys = [tree.rootId]
  · exact .inl ⟨alone, load_alone stored alone⟩
  · rcases found with ⟨leaves, levels, sound⟩ | ⟨top, stub⟩
    · have high : levels ≠ [] := by
        rintro rfl
        exact alone sound.stands.keys_alone
      obtain ⟨top, body, rooted, outside⟩ := sound.stands.internalRoot high
      have node := node?_of_bodyOf body
      rw [rooted, stored] at node
      cases node
      exact .inr ⟨alone, ⟨leaves, levels, sound⟩, _, ⟨rfl, rooted, outside⟩⟩
    · refine absurd ?_ alone
      rw [stub.nodes]
      rfl

/-- A flush saves a usable tree. -/
theorem Usable.flush (usable : Usable config tree) (store : BTreePersistence K V) :
    Saved config (tree.flush store) := by
  obtain ⟨keyed, root, stored⟩ := usable.hasRoot
  refine ⟨tree.metadata, root, rfl, loadNode_flush keyed stored store, ?_⟩
  rcases usable.load stored with ⟨-, same⟩ | ⟨-, -, stub⟩
  · rwa [same]
  · exact ⟨rfl, .inr stub⟩

end

/-- The invariant of a tree with persistence. -/
def Kept [LinearOrder K] (config : BPlusTreeConfig) (state : PersistentTree K V) : Prop :=
  Usable config state.tree ∧ Saved config state.store

variable {state : PersistentTree K V}

section

variable [LinearOrder K] {config : BPlusTreeConfig}

theorem Usable.new : Usable config (BPlusTree.new config : BPlusTree K V) :=
  ⟨rfl, .inl ⟨_, _, sound_new config⟩⟩

/-- An empty tree is saved as one file and the manifest. -/
theorem saved_empty (store : BTreePersistence K V) :
    Saved config ((BPlusTree.new config).saveEmpty store) :=
  ⟨_, _, rfl, BTreePersistence.loadNode_saveNode store (.newLeaf ⟨0⟩), Usable.new⟩

theorem Usable.call {tree : BPlusTree K V} (usable : Usable config tree)
    (splits : 2 ≤ config.maxKeys) (input : TreeCall K V) (notClear : input ≠ .clear) :
    Usable config (tree.call input).2 := by
  obtain ⟨rfl, ⟨leaves, levels, sound⟩ | ⟨root, stub⟩⟩ := usable
  · obtain ⟨_, new, reshaped, -, next, -, config⟩ := sound.call splits input
    exact ⟨config, .inl ⟨new, reshaped, next⟩⟩
  · obtain ⟨fault, failed⟩ := stub.call_fails input notClear
    rw [failed]
    exact ⟨rfl, .inr ⟨root, stub⟩⟩

/-- Every step keeps the tree usable and its files loadable. -/
theorem Kept.step (kept : Kept config state) (splits : 2 ≤ config.maxKeys)
    (input : PersistentCall K V) : Kept config (state.step input).2 := by
  obtain ⟨usable, saved⟩ := kept
  cases input with
  | flush => exact ⟨usable, usable.flush state.store⟩
  | reopen =>
    obtain ⟨metadata, root, manifest, loaded, reloaded⟩ := saved
    have opened : withPersistence state.tree.config state.store =
        .ok (load config metadata root, state.store) := by
      simp only [withPersistence, manifest, loaded]
      rw [usable.1]
    simp only [PersistentTree.step, opened]
    exact ⟨reloaded, metadata, root, manifest, loaded, reloaded⟩
  | call input =>
    cases input with
    | clear =>
      have cleared : (state.tree.call .clear).2 = BPlusTree.new config := by
        rw [← usable.1]
        rfl
      change Kept config ⟨(state.tree.call .clear).2, (state.tree.call .clear).2.saveEmpty _⟩
      rw [cleared]
      exact ⟨Usable.new, saved_empty state.store⟩
    | insert key value => exact ⟨usable.call splits (.insert key value) (by simp), saved⟩
    | delete key => exact ⟨usable.call splits (.delete key) (by simp), saved⟩
    | get key => exact ⟨usable.call splits (.get key) (by simp), saved⟩

/-- A tree is loaded as it was exactly when the root is its only node. -/
theorem Usable.reloadAgrees_iff [Nonempty K] (usable : Usable config state.tree) :
    state.ReloadAgrees ↔ state.tree.nodes.keys = [state.tree.rootId] := by
  obtain ⟨tree, store⟩ := state
  obtain ⟨keyed, root, stored⟩ := usable.hasRoot
  have opened : withPersistence tree.config (tree.flush store) =
      .ok (BPlusTree.load config tree.metadata root, tree.flush store) := by
    have manifest : (tree.flush store).loadManifest = some tree.metadata := rfl
    have loaded : (tree.flush store).loadNode tree.metadata.rootId = .ok root :=
      loadNode_flush keyed stored store
    simp only [withPersistence, manifest, loaded]
    rw [usable.1]
  simp only [PersistentTree.ReloadAgrees, opened]
  rcases usable.load stored with ⟨alone, same⟩ | ⟨several, ⟨leaves, levels, sound⟩, top, stub⟩
  · rw [same]
    exact ⟨fun _ => alone, fun _ => ⟨tree, _, rfl, fun _ => rfl⟩⟩
  · refine ⟨fun reloaded => ?_, fun alone => absurd alone several⟩
    obtain ⟨_, _, same, agrees⟩ := reloaded
    cases same
    obtain ⟨key⟩ := ‹Nonempty K›
    have answered := agrees key
    obtain ⟨fault, failed⟩ := stub.call_fails (.get key) (by simp)
    rw [failed, BPlusTree.call, answer, get_spec sound.stands sound.segmented] at answered
    cases answered

/-- After any run of a tree with persistence, flushing it and creating it again over
its files gives a tree that answers every get alike exactly when the root is the only
node of the tree. -/
theorem reloadAgrees_iff_alone (splits : 2 ≤ config.maxKeys)
    (inputs : List (PersistentCall Bytes Bytes)) :
    let state := PersistentTree.step.final (.created config) inputs
    state.ReloadAgrees ↔ state.tree.nodes.keys = [state.tree.rootId] := by
  have kept : Kept config (PersistentTree.step.final (.created config) inputs) :=
    Machine.invariant (Kept config) (fun _ input kept => kept.step splits input)
      ⟨Usable.new, saved_empty .empty⟩ inputs
  exact kept.1.reloadAgrees_iff

theorem reloadAgrees_iff_alone_order_four :
    (PersistentTree.step.final
      (.created { maxKeys := 4, minKeys := 2 } : PersistentTree Bytes Bytes)
      [.call (.insert [1] [7]), .flush, .reopen, .call (.insert [2] [8])]).ReloadAgrees :=
  (reloadAgrees_iff_alone (by decide) _).mpr (by decide +kernel)

/-- After the first split a restart does not find the children of the root. -/
theorem reload_misses_children :
    let state := PersistentTree.step.final
      (.created { maxKeys := 4, minKeys := 2 } : PersistentTree Bytes Bytes)
      [.call (.insert [1] [7]), .call (.insert [2] [8]), .call (.insert [3] [9]),
        .call (.insert [4] [10])]
    (state.tree.call (.get [1])).1 = .ok (.found (some [7])) ∧
      (withPersistence state.tree.config (state.tree.flush state.store)).toOption.map
        (fun (loaded, _) => (loaded.call (.get [1])).1) =
      some (.error (.error (.internal "Node BTreeNodeId(0) not found"))) := by
  decide +kernel

end

end Nanograph.BTree
