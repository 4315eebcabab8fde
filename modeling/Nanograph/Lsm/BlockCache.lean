import Nanograph.Foundation.Machine

/-!
# The block cache

The cache of `nanograph-lsm/src/cache.rs`, for blocks of any type whose size is estimated. An
insertion evicts blocks until the new one fits. Which block goes is decided by a score in
floating-point numbers; what is shown here does not depend on it. The loop is given as many
rounds as there are entries, and none stands for one that has not ended by then.
-/

namespace Nanograph.Lsm

open List Function Foundation

/-- Key of a block in the cache. -/
structure BlockKey where
  fileNumber : Nat
  blockOffset : Nat
deriving DecidableEq

/-- Entry in the list of uses. -/
structure LruEntry where
  key : BlockKey
  size : Nat
  accessCount : Nat
  lastAccess : Nat

structure BlockCache (B : Type) where
  capacity : Nat
  map : BlockKey → Option B
  lruList : List LruEntry
  currentSize : Nat
  accessCounter : Nat

namespace BlockCache

/-- The score of an entry: the lower, the sooner it is evicted. -/
def score (currentTime : Nat) (entry : LruEntry) : Float :=
  Float.ofNat entry.accessCount / (1.0 + Float.ofNat (currentTime - entry.lastAccess))

/-- The loop over the entries: the lowest score so far, and the position it is at. -/
def lowestScore (currentTime : Nat) : Float × Nat → List (LruEntry × Nat) → Nat
  | best, [] => best.2
  | best, (entry, idx) :: rest =>
    if score currentTime entry < best.1 then
      lowestScore currentTime (score currentTime entry, idx) rest
    else lowestScore currentTime best rest

/-- The position of the first entry with the lowest score. -/
def selectEvictionVictim (lruList : List LruEntry) : Option Nat :=
  if lruList.isEmpty then none
  else
    let currentTime := (lruList.map (·.lastAccess)).max?.getD 0
    some (lowestScore currentTime (1.7976931348623157e308, 0) lruList.zipIdx)

variable {B : Type}

def new (capacity : Nat) : BlockCache B := ⟨capacity, fun _ => none, [], 0, 0⟩

/-- Count a use of the first entry with a key. -/
def touch (key : BlockKey) (counter : Nat) : List LruEntry → List LruEntry
  | [] => []
  | entry :: rest =>
    if entry.key = key then
      { entry with accessCount := entry.accessCount + 1, lastAccess := counter } :: rest
    else entry :: touch key counter rest

def get (cache : BlockCache B) (key : BlockKey) : Option B × BlockCache B :=
  match cache.map key with
  | some block =>
    (some block, { cache with
      accessCounter := cache.accessCounter + 1
      lruList := touch key (cache.accessCounter + 1) cache.lruList })
  | none => (none, cache)

def remove (cache : BlockCache B) (key : BlockKey) : BlockCache B :=
  match cache.map key with
  | none => cache
  | some _ =>
    let map := update cache.map key none
    match cache.lruList.find? (·.key = key) with
    | some entry =>
      { cache with
        map := map
        lruList := cache.lruList.eraseP (·.key = key)
        currentSize := cache.currentSize - entry.size }
    | none => { cache with map := map }

/-- Evict blocks until there is room. -/
def evict (blockSize : Nat) : Nat → BlockCache B → Option (BlockCache B)
  | 0, cache =>
    if cache.currentSize + blockSize > cache.capacity ∧ cache.lruList ≠ [] then none
    else some cache
  | rounds + 1, cache =>
    if cache.currentSize + blockSize > cache.capacity ∧ cache.lruList ≠ [] then
      match (selectEvictionVictim cache.lruList).bind (cache.lruList[·]?) with
      | some victim => evict blockSize rounds (cache.remove victim.key)
      | none => some cache
    else some cache

/-- Insert a block into the cache, in place of one with the same key. -/
def insert (estimateBlockSize : B → Nat) (cache : BlockCache B) (key : BlockKey) (block : B) :
    Option (BlockCache B) :=
  let blockSize := estimateBlockSize block
  let removed := cache.remove key
  (evict blockSize removed.lruList.length removed).map fun evicted =>
    if blockSize ≤ evicted.capacity then
      { evicted with
        accessCounter := evicted.accessCounter + 1
        map := update evicted.map key (some block)
        lruList := evicted.lruList ++ [⟨key, blockSize, 1, evicted.accessCounter + 1⟩]
        currentSize := evicted.currentSize + blockSize }
    else evicted

def clear (cache : BlockCache B) : BlockCache B :=
  { cache with map := fun _ => none, lruList := [], currentSize := 0 }

/-- The keys and the sizes in the list of uses. -/
def slots (cache : BlockCache B) : List (BlockKey × Nat) :=
  cache.lruList.map fun entry => (entry.key, entry.size)

/-- The list of uses has each key of the map once with the size of its block, and the size of
the cache is that of its blocks and not above the capacity. -/
structure Consistent (estimateBlockSize : B → Nat) (cache : BlockCache B) : Prop where
  nodup : (cache.slots.map Prod.fst).Nodup
  mem_slots : ∀ key size, (key, size) ∈ cache.slots ↔
    (cache.map key).map estimateBlockSize = some size
  total : cache.currentSize = (cache.slots.map Prod.snd).sum
  bounded : cache.currentSize ≤ cache.capacity

section

variable {estimateBlockSize : B → Nat} {cache : BlockCache B}

theorem consistent_clear (cache : BlockCache B) : Consistent estimateBlockSize cache.clear :=
  ⟨nodup_nil, fun _ _ => by simp [slots, clear], rfl, Nat.zero_le _⟩

theorem slots_touch (key : BlockKey) (counter : Nat) (entries : List LruEntry) :
    (touch key counter entries).map (fun entry => (entry.key, entry.size)) =
      entries.map fun entry => (entry.key, entry.size) := by
  induction entries with
  | nil => rfl
  | cons entry rest ih =>
    rw [touch]
    split
    · rfl
    · rw [map_cons, map_cons, ih]

theorem get_keeps (cache : BlockCache B) (key : BlockKey) :
    (cache.get key).2.map = cache.map ∧ (cache.get key).2.capacity = cache.capacity := by
  rw [get]
  split <;> exact ⟨rfl, rfl⟩

theorem Consistent.get (consistent : Consistent estimateBlockSize cache) (key : BlockKey) :
    Consistent estimateBlockSize (cache.get key).2 := by
  rw [BlockCache.get]
  split
  next =>
    have same := slots_touch key (cache.accessCounter + 1) cache.lruList
    constructor
    · rw [slots, same]; exact consistent.nodup
    · rw [slots, same]; exact consistent.mem_slots
    · rw [slots, same]; exact consistent.total
    · exact consistent.bounded
  next => exact consistent

/-- A block that is removed is gone from the map and from the list of uses. -/
theorem Consistent.remove (consistent : Consistent estimateBlockSize cache) (key : BlockKey) :
    Consistent estimateBlockSize (cache.remove key) ∧
      (cache.remove key).map = update cache.map key none ∧
      (cache.remove key).capacity = cache.capacity ∧
      (cache.map key ≠ none → (cache.remove key).lruList.length < cache.lruList.length) := by
  cases present : cache.map key with
  | none =>
    rw [BlockCache.remove, present]
    exact ⟨consistent, (update_eq_self_iff.mpr present.symm).symm, rfl,
      fun cached => absurd rfl cached⟩
  | some block =>
    obtain ⟨entry, mem, isSlot⟩ := mem_map.mp
      ((consistent.mem_slots key (estimateBlockSize block)).mpr (by rw [present]; rfl))
    obtain ⟨used, front, back, before, isKey, parts, erased⟩ := exists_of_eraseP
      (p := (decide <| ·.key = key)) mem (decide_eq_true (congrArg Prod.fst isSlot))
    have found : cache.lruList.find? (·.key = key) = some used :=
      find?_eq_some_iff_append.mpr
        ⟨isKey, front, back, parts, fun other inFront => by simpa using before other inFront⟩
    obtain rfl := of_decide_eq_true isKey
    have slotsEq : cache.slots = front.map (fun entry => (entry.key, entry.size)) ++
        (used.key, used.size) :: back.map fun entry => (entry.key, entry.size) := by
      simp [slots, parts]
    obtain ⟨nodup, members, total, bounded⟩ := consistent
    rw [slotsEq] at nodup members total
    rw [BlockCache.remove, present]
    simp only [found, erased]
    have kept : (⟨cache.capacity, update cache.map used.key none, front ++ back,
        cache.currentSize - used.size, cache.accessCounter⟩ : BlockCache B).slots =
        front.map (fun entry => (entry.key, entry.size)) ++
          back.map fun entry => (entry.key, entry.size) := map_append
    generalize front.map (fun entry => (entry.key, entry.size)) = first at *
    refine ⟨⟨?_, fun other size => ?_, ?_, ?_⟩, trivial, trivial, fun _ => by simp [parts]⟩
    · rw [kept]
      simp only [map_append, map_cons, nodup_middle, nodup_cons] at nodup ⊢
      exact nodup.2
    · rw [kept]
      have here := members other size
      simp only [map_append, map_cons, nodup_middle, nodup_cons,
        mem_append, mem_cons, update_apply] at nodup here ⊢
      split
      next same =>
        refine iff_of_false (fun listed => nodup.1 ?_) nofun
        exact listed.imp (fun inFirst => mem_map.mpr ⟨_, inFirst, same⟩)
          fun inLast => mem_map.mpr ⟨_, inLast, same⟩
      next different => simpa [different] using here
    · rw [kept]
      simp only [total, map_append, map_cons, sum_append, sum_cons]
      omega
    · exact (Nat.sub_le _ _).trans bounded

theorem lowestScore_mem (currentTime : Nat) (best : Float × Nat) (items : List (LruEntry × Nat)) :
    lowestScore currentTime best items ∈ best.2 :: items.map Prod.snd := by
  induction items generalizing best with
  | nil => simp [lowestScore]
  | cons item rest ih =>
    rw [lowestScore]
    split
    · exact mem_cons_of_mem _ (ih _)
    · exact (List.Sublist.cons_cons _ (sublist_cons_self _ _)).subset (ih _)

theorem exists_victim {entries : List LruEntry} (nonempty : entries ≠ []) :
    ∃ victim ∈ entries, (selectEvictionVictim entries).bind (entries[·]?) = some victim := by
  rw [selectEvictionVictim, if_neg (by simpa using nonempty)]
  have listed := lowestScore_mem ((entries.map (·.lastAccess)).max?.getD 0)
    (1.7976931348623157e308, 0) entries.zipIdx
  simp only [Option.bind_some]
  generalize lowestScore _ _ entries.zipIdx = idx at listed ⊢
  have positive := length_pos_iff.mpr nonempty
  have inside : idx < entries.length := by
    rw [zipIdx_map_snd, mem_cons, mem_range'_1] at listed
    omega
  exact ⟨entries[idx], getElem_mem inside, getElem?_eq_getElem inside⟩

/-- Evicting ends, with room for the block or with an empty cache, and only drops blocks. -/
theorem Consistent.evict (consistent : Consistent estimateBlockSize cache) (blockSize : Nat)
    {rounds : Nat} (enough : cache.lruList.length ≤ rounds) :
    ∃ next, evict blockSize rounds cache = some next ∧ Consistent estimateBlockSize next ∧
      next.capacity = cache.capacity ∧
      (∀ key block, next.map key = some block → cache.map key = some block) ∧
      (next.currentSize + blockSize ≤ next.capacity ∨ next.lruList = []) := by
  induction rounds generalizing cache with
  | zero =>
    have empty := eq_nil_of_length_eq_zero (Nat.le_zero.mp enough)
    refine ⟨cache, ?_, consistent, rfl, fun _ _ found => found, .inr empty⟩
    rw [BlockCache.evict, if_neg (by simp [empty])]
  | succ rounds ih =>
    rw [BlockCache.evict]
    split
    next full =>
      obtain ⟨victim, mem, isVictim⟩ := exists_victim full.2
      rw [isVictim]
      obtain ⟨removed, map, capacity, shorter⟩ := consistent.remove victim.key
      have isCached : cache.map victim.key ≠ none := by
        have slot := (consistent.mem_slots victim.key victim.size).mp
          (mem_map.mpr ⟨victim, mem, rfl⟩)
        rintro missing
        simp [missing] at slot
      obtain ⟨next, evicted, holds, same, dropped, room⟩ :=
        ih removed (by have := shorter isCached; omega)
      refine ⟨next, evicted, holds, same.trans capacity, fun key block found => ?_, room⟩
      have before := dropped key block found
      rw [map, update_apply] at before
      split at before
      · cases before
      · exact before
    next room =>
      refine ⟨cache, rfl, consistent, rfl, fun _ _ found => found, ?_⟩
      by_contra neither
      exact room (by simpa [not_or] using neither)

/-- An insertion ends, and what it leaves under a key was there or is the new block. -/
theorem Consistent.insert (consistent : Consistent estimateBlockSize cache) (key : BlockKey)
    (block : B) :
    ∃ next, cache.insert estimateBlockSize key block = some next ∧
      Consistent estimateBlockSize next ∧ next.capacity = cache.capacity ∧
      ∀ other found, next.map other = some found →
        if other = key then found = block else cache.map other = some found := by
  obtain ⟨removed, map, capacity, -⟩ := consistent.remove key
  obtain ⟨evicted, ended, holds, same, dropped, room⟩ :=
    removed.evict (estimateBlockSize block) le_rfl
  have gone : evicted.map key = none := by
    cases found : evicted.map key with
    | none => rfl
    | some other =>
      have before := dropped key other found
      rw [map, update_self] at before
      cases before
  have kept {other : BlockKey} {found : B} (isKept : evicted.map other = some found) :
      cache.map other = some found := by
    have before := dropped other found isKept
    rw [map, update_apply] at before
    split at before
    · cases before
    · exact before
  rw [BlockCache.insert]
  simp only [ended, Option.map_some]
  refine ⟨_, rfl, ?_⟩
  split
  next fits =>
    have slotsEq : (BlockCache.mk evicted.capacity (update evicted.map key (some block))
        (evicted.lruList ++ [⟨key, estimateBlockSize block, 1, evicted.accessCounter + 1⟩])
        (evicted.currentSize + estimateBlockSize block) (evicted.accessCounter + 1)).slots =
        evicted.slots ++ [(key, estimateBlockSize block)] := by simp [slots]
    refine ⟨⟨?_, fun other size => ?_, ?_, ?_⟩, same.trans capacity, fun other found isFound => ?_⟩
    · rw [slotsEq, map_append, nodup_append]
      refine ⟨holds.nodup, nodup_singleton _, fun other listed last isLast => ?_⟩
      obtain ⟨⟨_, size⟩, isSlot, rfl⟩ := mem_map.mp listed
      obtain rfl : last = key := mem_singleton.mp isLast
      rintro rfl
      have cached := (holds.mem_slots _ _).mp isSlot
      simp [gone] at cached
    · rw [slotsEq, mem_append, holds.mem_slots]
      simp only [update_apply]
      split
      next own => simp [own, gone, eq_comm]
      next different => simp [different]
    · rw [slotsEq, map_append, sum_append, ← holds.total]
      simp
    · rcases room with room | empty
      · exact room
      · have total := holds.total
        simp only [slots, empty, map_nil, sum_nil] at total
        simpa [total] using fits
    · simp only [update_apply] at isFound
      split at isFound
      next own => exact (if_pos own).mpr (Option.some.inj isFound).symm
      next different => exact (if_neg different).mpr (kept isFound)
  next tooLarge =>
    refine ⟨holds, same.trans capacity, fun other found isFound => ?_⟩
    split
    next own => rw [own, gone] at isFound; cases isFound
    next => exact kept isFound

end

end BlockCache

/-- A cache with the block that was last inserted under each key. -/
structure CacheRun (B : Type) where
  cache : BlockCache B
  inserted : BlockKey → Option B

/-- The calls on a cache. -/
inductive CacheOp (B : Type) where
  | get (key : BlockKey)
  | insert (key : BlockKey) (block : B)
  | remove (key : BlockKey)
  | clear

namespace CacheRun

variable {B : Type} (estimateBlockSize : B → Nat)

def step : Machine (CacheRun B) (CacheOp B) (Option B)
  | run, .get key => ((run.cache.get key).1, { run with cache := (run.cache.get key).2 })
  | run, .insert key block =>
    (none, ⟨(run.cache.insert estimateBlockSize key block).getD run.cache,
      update run.inserted key (some block)⟩)
  | run, .remove key => (none, { run with cache := run.cache.remove key })
  | run, .clear => (none, { run with cache := run.cache.clear })

/-- The cache is consistent, and holds only what was last inserted. -/
def Valid (capacity : Nat) (run : CacheRun B) : Prop :=
  run.cache.Consistent estimateBlockSize ∧ run.cache.capacity = capacity ∧
    ∀ key block, run.cache.map key = some block → run.inserted key = some block

theorem Valid.step {capacity : Nat} {run : CacheRun B} (valid : run.Valid estimateBlockSize capacity)
    (op : CacheOp B) : (step estimateBlockSize run op).2.Valid estimateBlockSize capacity := by
  obtain ⟨consistent, rfl, latest⟩ := valid
  cases op with
  | get key =>
    obtain ⟨map, capacity⟩ := run.cache.get_keeps key
    exact ⟨consistent.get key, capacity, fun other found isFound =>
      latest other found (map ▸ isFound)⟩
  | insert key block =>
    obtain ⟨next, ended, holds, capacity, left⟩ := consistent.insert key block
    simp only [CacheRun.step, ended, Option.getD_some]
    refine ⟨holds, capacity, fun other found isFound => ?_⟩
    have here := left other found isFound
    simp only [update_apply]
    split
    next own => rw [(if_pos own).mp here]
    next different => exact latest other found ((if_neg different).mp here)
  | remove key =>
    obtain ⟨holds, map, capacity, -⟩ := consistent.remove key
    refine ⟨holds, capacity, fun other found isFound => latest other found ?_⟩
    rw [CacheRun.step, map, update_apply] at isFound
    split at isFound
    · cases isFound
    · exact isFound
  | clear => exact ⟨run.cache.consistent_clear, rfl, nofun⟩

/-- In every run of a cache its map and its list of uses have the same keys, each once, its size
is that of its blocks and within the capacity, it returns only what was last inserted, and every
insertion ends. -/
theorem valid_run (capacity : Nat) (ops : List (CacheOp B)) :
    let run := (step estimateBlockSize).final ⟨.new capacity, fun _ => none⟩ ops
    (run.cache.Consistent estimateBlockSize ∧ run.cache.capacity = capacity) ∧
      (∀ key block, (run.cache.get key).1 = some block → run.inserted key = some block) ∧
      ∀ key block, ∃ next, run.cache.insert estimateBlockSize key block = some next := by
  intro run
  have valid : run.Valid estimateBlockSize capacity :=
    (step estimateBlockSize).invariant _ (fun _ op valid => valid.step estimateBlockSize op)
      ⟨(BlockCache.new capacity).consistent_clear, rfl, nofun⟩ ops
  refine ⟨⟨valid.1, valid.2.1⟩, fun key block isFound => valid.2.2 key block ?_, fun key block => ?_⟩
  · rw [BlockCache.get] at isFound
    split at isFound
    next cached => rwa [cached]
    next => cases isFound
  · obtain ⟨next, ended, -⟩ := valid.1.insert key block
    exact ⟨next, ended⟩

end CacheRun

end Nanograph.Lsm
