import Nanograph.Foundation.Keyed
import Nanograph.Foundation.Range
import Nanograph.Raft.Types
import Nanograph.Wal.Manager

/-!
# The log of a consensus group

`nanograph-raft/src/storage/logstore.rs`: votes, committed positions and entries are written
to the write-ahead log and kept in memory, entries under their indices. Reads answer from
memory. `ConsensusLogStore.new` starts with nothing in memory, whatever the write-ahead log
holds, so a restart gives back the same reads exactly when there was nothing to give back.
-/

namespace Nanograph.Raft

open List Foundation Util Wal

/-- A record of the write-ahead log. -/
inductive ConsensusLogRecord (P : Type) where
  | committed (logId : LogId)
  | entry (entry : Entry P)
  | vote (vote : Vote)
deriving DecidableEq, Encodable

/-- Last purged and last present position of a log. -/
structure LogState where
  lastPurgedLogId : Option LogId
  lastLogId : Option LogId

/-- The log of a group: the write-ahead log and what is kept in memory of it. -/
structure ConsensusLogStore where
  lastPurgedLogId : Option LogId
  logStore : Log
  index : List (Nat × LogSequenceNumber × Bytes)
  vote : Option Vote
  committed : Option LogId

/-- The calls that change a log. -/
inductive LogStoreCall (P : Type) where
  | saveVote (vote : Vote)
  | saveCommitted (committed : Option LogId)
  | append (entries : List (Entry P))
  | truncateAfter (lastLogId : Option LogId)
  | purge (logId : LogId)

/-- The index after the one of a position, as a 64-bit number. -/
def LogId.nextIndex (logId : LogId) : Nat := (logId.index + 1) % 2 ^ 64

namespace ConsensusLogStore

/-- A store over a write-ahead log. -/
def new (logStore : Log) : ConsensusLogStore where
  lastPurgedLogId := none
  logStore
  index := []
  vote := none
  committed := none

variable {P : Type} (codec : Codec (ConsensusLogRecord P)) (digests : Digests)

/-- Append a record to a write-ahead log. -/
def write (log : Log) (kind : UInt16) (payload : Bytes) (durability : Durability) :
    LogSequenceNumber × Log :=
  let written := WriteAheadLogWriter.append digests log.manager log.file ⟨kind, payload⟩ durability
  (written.1, ⟨written.2.1, written.2.2⟩)

/-- Append the payloads of entries, one after the other. -/
def writeAll (log : Log) : List Bytes → List LogSequenceNumber × Log
  | [] => ([], log)
  | payload :: rest =>
    let written := write digests log 0 payload .buffered
    let others := writeAll written.2 rest
    (written.1 :: others.1, others.2)

def saveVote (store : ConsensusLogStore) (vote : Vote) : ConsensusLogStore :=
  { store with
    logStore := (write digests store.logStore 1 (codec.serialize (.vote vote)) .sync).2
    vote := some vote }

/-- Save the last committed position; nothing is written when there is none. -/
def saveCommitted (store : ConsensusLogStore) (committed : Option LogId) : ConsensusLogStore :=
  { store with
    logStore := match committed with
      | some logId =>
        (write digests store.logStore 2 (codec.serialize (.committed logId)) .sync).2
      | none => store.logStore
    committed }

/-- The items of the index for entries that were written. -/
def indexItems (entriesData : List (LogId × Bytes)) (lsns : List LogSequenceNumber) :
    List (Nat × LogSequenceNumber × Bytes) :=
  (entriesData.zip lsns).map fun entry => (entry.1.1.index, entry.2, entry.1.2)

/-- Append entries: all of them to the write-ahead log, then all of them to the index. -/
def append (store : ConsensusLogStore) (entries : List (Entry P)) : ConsensusLogStore :=
  let entriesData := entries.map fun entry => (entry.logId, codec.serialize (.entry entry))
  let written := writeAll digests store.logStore (entriesData.map (·.2))
  { store with
    logStore := written.2
    index := (indexItems entriesData written.1).foldl
      (fun index item => insertItem (·.1) item index) store.index }

/-- Forget the entries behind a position. -/
def truncateAfter (store : ConsensusLogStore) (lastLogId : Option LogId) : ConsensusLogStore :=
  { store with
    index := match lastLogId with
      | some logId => store.index.filter (·.1 < logId.nextIndex)
      | none => [] }

/-- Forget the entries up to a position. Of the write-ahead log only segments that are not
the active one are deleted, and there are none. -/
def purge (store : ConsensusLogStore) (logId : LogId) : ConsensusLogStore :=
  { store with
    index := store.index.filter (logId.nextIndex ≤ ·.1)
    lastPurgedLogId := some logId }

/-- The last purged and the last present position. -/
def getLogState (store : ConsensusLogStore) : Except IoError LogState :=
  match store.index.getLast? with
  | some (_, _, payload) =>
    match codec.deserialize payload with
    | some (.entry entry) => .ok ⟨store.lastPurgedLogId, some entry.logId⟩
    | some _ => .ok ⟨store.lastPurgedLogId, store.lastPurgedLogId⟩
    | none => .error .other
  | none => .ok ⟨store.lastPurgedLogId, store.lastPurgedLogId⟩

def decodeEntries : List Bytes → Except IoError (List (Entry P))
  | [] => .ok []
  | payload :: rest =>
    match codec.deserialize payload with
    | some (.entry entry) => (entry :: ·) <$> decodeEntries rest
    | some _ => decodeEntries rest
    | none => .error .other

/-- The entries with indices in a range. -/
def tryGetLogEntries (store : ConsensusLogStore) (start last : Bound Nat) :
    Except IoError (List (Entry P)) :=
  decodeEntries codec ((inRange start last store.index).map (·.2.2))

/-- The last saved vote, or the vote for node 0 in term 0. -/
def readVote (store : ConsensusLogStore) : Option Vote :=
  some (store.vote.getD (Vote.new 0 ⟨0⟩))

/-- The last saved committed position. -/
def readCommitted (store : ConsensusLogStore) : Option LogId := store.committed

def call : Machine ConsensusLogStore (LogStoreCall P) Unit
  | store, .saveVote vote => ((), store.saveVote codec digests vote)
  | store, .saveCommitted committed => ((), store.saveCommitted codec digests committed)
  | store, .append entries => ((), store.append codec digests entries)
  | store, .truncateAfter lastLogId => ((), store.truncateAfter lastLogId)
  | store, .purge logId => ((), store.purge logId)

/-- Two stores answer every read alike. -/
structure SameReads (first second : ConsensusLogStore) : Prop where
  vote : first.readVote = second.readVote
  committed : first.readCommitted = second.readCommitted
  logState : first.getLogState codec = second.getLogState codec
  entries : ∀ start last,
    first.tryGetLogEntries codec start last = second.tryGetLogEntries codec start last

end ConsensusLogStore

namespace LogStoreCall

variable {P : Type}

/-- The vote that calls leave, if one was saved. -/
def savedVote (calls : List (LogStoreCall P)) : Option Vote :=
  calls.foldl (fun held call => match call with
    | .saveVote vote => some vote
    | _ => held) none

/-- The committed position that calls leave. -/
def savedCommitted (calls : List (LogStoreCall P)) : Option LogId :=
  calls.foldl (fun held call => match call with
    | .saveCommitted committed => committed
    | _ => held) none

/-- The position that calls purged last. -/
def purgedUpTo (calls : List (LogStoreCall P)) : Option LogId :=
  calls.foldl (fun held call => match call with
    | .purge logId => some logId
    | _ => held) none

/-- The indices of entries that were appended and neither truncated nor purged. -/
def keptIndices (calls : List (LogStoreCall P)) : List Nat :=
  calls.foldl (fun held call => match call with
    | .append entries => held ++ entries.map (·.logId.index)
    | .truncateAfter (some logId) => held.filter (· < logId.nextIndex)
    | .truncateAfter none => []
    | .purge logId => held.filter (logId.nextIndex ≤ ·)
    | _ => held) []

/-- Calls that leave nothing a restart could lose. -/
structure NothingKept (calls : List (LogStoreCall P)) : Prop where
  vote : ∀ vote, savedVote calls = some vote → vote = Vote.new 0 ⟨0⟩
  committed : savedCommitted calls = none
  purged : purgedUpTo calls = none
  entries : keptIndices calls = []

end LogStoreCall

namespace ConsensusLogStore

open LogStoreCall

variable {P : Type} {codec : Codec (ConsensusLogRecord P)} {digests : Digests}

/-- What is in memory after calls. -/
structure Recorded (codec : Codec (ConsensusLogRecord P)) (calls : List (LogStoreCall P))
    (store : ConsensusLogStore) : Prop where
  vote : store.vote = savedVote calls
  committed : store.committed = savedCommitted calls
  purged : store.lastPurgedLogId = purgedUpTo calls
  indices : ∀ number, number ∈ store.index.map (·.1) ↔ number ∈ keptIndices calls
  payloads : ∀ item ∈ store.index, ∃ entry, codec.deserialize item.2.2 = some (.entry entry)

theorem length_writeAll (log : Log) (payloads : List Bytes) :
    (writeAll digests log payloads).1.length = payloads.length := by
  induction payloads generalizing log with
  | nil => rfl
  | cons payload rest ih =>
    rw [writeAll, length_cons, length_cons, ih]

section

variable {item other : Nat × LogSequenceNumber × Bytes}
  {items index : List (Nat × LogSequenceNumber × Bytes)}

theorem mem_keys_insertItem (item) (index : List (Nat × LogSequenceNumber × Bytes)) (number : Nat) :
    number ∈ (insertItem (·.1) item index).map (·.1) ↔ number = item.1 ∨ number ∈ index.map (·.1) := by
  induction index with
  | nil => simp [insertItem]
  | cons first rest ih =>
    rw [insertItem]
    split
    · rw [map_cons, mem_cons, ih, map_cons, mem_cons]
      tauto
    · split
      · simp
      · have same : item.1 = first.1 := by omega
        simp [same]

section

variable (items index)

include items index

/-- The index after a list of insertions. -/
theorem mem_keys_foldl (number : Nat) :
    number ∈ (items.foldl (fun index item => insertItem (·.1) item index) index).map (·.1) ↔
      number ∈ index.map (·.1) ∨ number ∈ items.map (·.1) := by
  induction items generalizing index with
  | nil => simp
  | cons item rest ih =>
    rw [foldl_cons, ih, mem_keys_insertItem, map_cons, mem_cons]
    tauto

theorem mem_foldl
    (mem : other ∈ items.foldl (fun index item => insertItem (·.1) item index) index) :
    other ∈ index ∨ other ∈ items := by
  induction items generalizing index with
  | nil => exact .inl mem
  | cons item rest ih =>
    rcases ih _ mem with inIndex | inRest
    · rcases mem_insertItem inIndex with rfl | earlier
      · exact .inr (mem_cons_self ..)
      · exact .inl earlier
    · exact .inr (mem_cons_of_mem _ inRest)

end

end

theorem mem_keys_indexItems (entriesData : List (LogId × Bytes))
    (lsns : List LogSequenceNumber) (lengths : lsns.length = entriesData.length) :
    (indexItems entriesData lsns).map (·.1) = entriesData.map (·.1.index) := by
  have front : (entriesData.zip lsns).map Prod.fst = entriesData :=
    map_fst_zip lengths.ge
  rw [indexItems, map_map]
  conv => rhs; rw [← front, map_map]
  rfl

/-- Appended entries are in the index. -/
theorem mem_keys_append (store : ConsensusLogStore) (entries : List (Entry P)) (number : Nat) :
    number ∈ (store.append codec digests entries).index.map (·.1) ↔
      number ∈ store.index.map (·.1) ∨ number ∈ entries.map (·.logId.index) := by
  rw [append, mem_keys_foldl, mem_keys_indexItems _ _ (by rw [length_writeAll, length_map]),
    map_map]
  rfl

variable {store : ConsensusLogStore} {calls : List (LogStoreCall P)}

theorem payloads_append
    (payloads : ∀ item ∈ store.index, ∃ entry, codec.deserialize item.2.2 = some (.entry entry))
    (entries : List (Entry P)) :
    ∀ item ∈ (store.append codec digests entries).index,
      ∃ entry, codec.deserialize item.2.2 = some (.entry entry) := by
  intro item mem
  rcases mem_foldl _ _ mem with earlier | isNew
  · exact payloads item earlier
  · obtain ⟨⟨data, lsn⟩, zipped, rfl⟩ := mem_map.mp isNew
    obtain ⟨entry, -, rfl⟩ := mem_map.mp (of_mem_zip zipped).1
    exact ⟨entry, codec.deserialize_serialize _⟩

theorem mem_keys_filter (keep : Nat → Bool) (index : List (Nat × LogSequenceNumber × Bytes))
    (number : Nat) :
    number ∈ (index.filter fun item => keep item.1).map (·.1) ↔
      number ∈ index.map (·.1) ∧ keep number = true := by
  simp only [mem_map, mem_filter]
  constructor
  · rintro ⟨item, ⟨mem, kept⟩, rfl⟩
    exact ⟨⟨item, mem, rfl⟩, kept⟩
  · rintro ⟨⟨item, mem, rfl⟩, kept⟩
    exact ⟨item, ⟨mem, kept⟩, rfl⟩

/-- One call changes what is in memory as it says. -/
theorem Recorded.call (recorded : Recorded codec calls store) (next : LogStoreCall P) :
    Recorded codec (calls ++ [next]) (call codec digests store next).2 := by
  obtain ⟨vote, committed, purged, indices, payloads⟩ := recorded
  constructor
  case vote =>
    rw [savedVote, foldl_append]
    cases next <;> first | exact vote | rfl
  case committed =>
    rw [savedCommitted, foldl_append]
    cases next <;> first | exact committed | rfl
  case purged =>
    rw [purgedUpTo, foldl_append]
    cases next <;> first | exact purged | rfl
  case indices =>
    intro number
    rw [keptIndices, foldl_append, foldl_cons, foldl_nil]
    cases next with
    | saveVote saved => exact indices number
    | saveCommitted saved => exact indices number
    | append entries =>
      rw [ConsensusLogStore.call, mem_keys_append, mem_append, indices]
      rfl
    | truncateAfter lastLogId =>
      cases lastLogId with
      | none => exact Iff.rfl
      | some logId =>
        rw [mem_filter]
        exact (mem_keys_filter (· < logId.nextIndex) _ number).trans
          (and_congr_left fun _ => indices number)
    | purge logId =>
      rw [mem_filter]
      exact (mem_keys_filter (logId.nextIndex ≤ ·) _ number).trans
        (and_congr_left fun _ => indices number)
  case payloads =>
    cases next with
    | saveVote saved => exact payloads
    | saveCommitted saved => exact payloads
    | append entries => exact payloads_append payloads entries
    | truncateAfter lastLogId =>
      cases lastLogId with
      | none => exact fun item mem => absurd mem (not_mem_nil)
      | some logId => exact fun item mem => payloads item (mem_of_mem_filter mem)
    | purge logId => exact fun item mem => payloads item (mem_of_mem_filter mem)

/-- What is in memory at the end of a run. -/
theorem recorded_final (log : Log) (calls : List (LogStoreCall P)) :
    Recorded codec calls ((call codec digests).final (new log) calls) := by
  have start : Recorded codec ([] : List (LogStoreCall P)) (new log) :=
    ⟨rfl, rfl, rfl, fun number => Iff.rfl, fun item mem => absurd mem not_mem_nil⟩
  have always : (call codec digests).Along (fun _ _ => True) (new log) calls :=
    Machine.along_of_forall fun _ _ => trivial
  exact Machine.history_along (Recorded codec) (fun _ _ next recorded _ => recorded.call next)
    start always

/-- An index full of entries is read completely. -/
theorem length_decodeEntries {items : List (Nat × LogSequenceNumber × Bytes)}
    (payloads : ∀ item ∈ items, ∃ entry, codec.deserialize item.2.2 = some (.entry entry)) :
    ∃ entries, decodeEntries codec (items.map (·.2.2)) = .ok entries ∧
      entries.length = items.length := by
  induction items with
  | nil => exact ⟨[], rfl, rfl⟩
  | cons item rest ih =>
    obtain ⟨first, others⟩ := forall_mem_cons.mp payloads
    obtain ⟨entry, decoded⟩ := first
    obtain ⟨entries, read, lengths⟩ := ih others
    refine ⟨entry :: entries, ?_, by rw [length_cons, length_cons, lengths]⟩
    simp only [map_cons, decodeEntries, decoded, read]
    rfl

/-- A store is read like a new one when calls left nothing, and only then. -/
theorem Recorded.sameReads_iff (recorded : Recorded codec calls store) (log : Log) :
    SameReads codec (new log) store ↔ NothingKept calls := by
  constructor
  · intro same
    have purged : store.lastPurgedLogId = none := by
      have state := same.logState
      simp only [getLogState, new, getLast?_nil] at state
      split at state
      · split at state <;> simp_all
      · simp_all
    have empty : store.index = [] := by
      obtain ⟨entries, read, lengths⟩ := length_decodeEntries recorded.payloads
      have all : inRange .unbounded .unbounded store.index = store.index :=
        filter_eq_self.mpr fun _ _ => rfl
      have shown := same.entries .unbounded .unbounded
      rw [tryGetLogEntries, tryGetLogEntries, all, read] at shown
      have none : entries = [] := (Except.ok.inj shown).symm
      exact eq_nil_of_length_eq_zero (by rw [← lengths, none, length_nil])
    constructor
    case vote =>
      intro vote saved
      have shown := same.vote
      rw [readVote, readVote, recorded.vote, saved] at shown
      exact (Option.some.inj shown).symm
    case committed => exact recorded.committed.symm.trans same.committed.symm
    case purged => exact recorded.purged.symm.trans purged
    case entries =>
      refine eq_nil_iff_forall_not_mem.mpr fun number kept => ?_
      have present := (recorded.indices number).mpr kept
      rw [empty] at present
      cases present
  · intro nothing
    have empty : store.index = [] := by
      refine eq_nil_iff_forall_not_mem.mpr fun item mem => ?_
      have kept := (recorded.indices item.1).mp (mem_map_of_mem mem)
      rw [nothing.entries] at kept
      cases kept
    have purged := recorded.purged.trans nothing.purged
    constructor
    case vote =>
      rw [readVote, readVote, recorded.vote]
      cases saved : savedVote calls with
      | none => rfl
      | some vote => rw [nothing.vote vote saved]; rfl
    case committed => exact (recorded.committed.trans nothing.committed).symm
    case logState => simp [getLogState, new, empty, purged]
    case entries => simp [tryGetLogEntries, new, empty]

/-- A restart over the same write-ahead log gives back every read exactly when the calls left
nothing. -/
theorem restart_reads_same_iff (codec : Codec (ConsensusLogRecord P)) (digests : Digests)
    (log : Log) (calls : List (LogStoreCall P)) :
    SameReads codec (new ((call codec digests).final (new log) calls).logStore)
        ((call codec digests).final (new log) calls) ↔ NothingKept calls :=
  (recorded_final log calls).sameReads_iff _

/-- A vote in term 1 is read as the vote of term 0 after a restart. -/
theorem restart_forgets_vote :
    ¬ SameReads (Codec.ofEncodable (ConsensusLogRecord Unit))
      (new ((call (Codec.ofEncodable (ConsensusLogRecord Unit)) ⟨fun _ => 0, fun _ => 0⟩).final
        (new (Log.create ⟨fun _ => 0, fun _ => 0⟩ ⟨0, .crc32c, .none, .none⟩ 0))
        [.saveVote (Vote.new 1 ⟨1⟩)]).logStore)
      ((call (Codec.ofEncodable (ConsensusLogRecord Unit)) ⟨fun _ => 0, fun _ => 0⟩).final
        (new (Log.create ⟨fun _ => 0, fun _ => 0⟩ ⟨0, .crc32c, .none, .none⟩ 0))
        [.saveVote (Vote.new 1 ⟨1⟩)]) := by
  intro same
  have shown : some (Vote.new 0 ⟨0⟩) = some (Vote.new 1 ⟨1⟩) := same.vote
  exact absurd shown (by decide)

end ConsensusLogStore

end Nanograph.Raft
