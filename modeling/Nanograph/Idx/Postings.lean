import Nanograph.Idx.FullText

/-!
# Postings of a full-text index

The records of a full-text index are read as the postings of the terms and the terms of the
documents. Every call changes them as a change of the set of documents does: the postings of a
term are those of the documents with the term. The frequency of a posting is a 32-bit number, so
it is the number of occurrences as long as this number fits.
-/

namespace Nanograph.Idx

open List Function Foundation Kvt PersistentIndexStore

/-- What a record of a full-text index is about. -/
inductive RecordKey where
  | term (term : String)
  | stats (primaryKey : Bytes)
  | reverse (primaryKey : Bytes)
deriving DecidableEq

namespace RecordKey

/-- The key under which a record is stored. -/
def bytes : RecordKey → Bytes
  | term name => FullTextIndex.buildTermKey name
  | stats primaryKey => FullTextIndex.buildDocStatsKey primaryKey
  | reverse primaryKey => FullTextIndex.buildReverseKey primaryKey

/-- Different records have different keys. -/
theorem bytes_injective : Injective bytes := by
  intro first second same
  cases first <;> cases second <;>
    simp_all [bytes, FullTextIndex.buildTermKey, FullTextIndex.buildDocStatsKey,
      FullTextIndex.buildReverseKey]
  exact String.toByteArray_inj.mp (ByteArray.ext same)

end RecordKey

variable {Cache : Type} [LruCache Cache]

def record (storage : PersistentIndexStore Cache) (key : RecordKey) : Option Bytes :=
  storage.store.get (buildKey storage.config key.bytes [])

section

variable (storage : PersistentIndexStore Cache) (key other : RecordKey)

theorem buildKey_bytes_inj {config : PersistenceConfig} :
    buildKey config key.bytes [] = buildKey config other.bytes [] ↔ key = other := by
  simp [buildKey, RecordKey.bytes_injective.eq_iff]

theorem record_writeEntry (value : Bytes) :
    record (storage.writeEntry key.bytes [] value) other =
      if key = other then some value else record storage other := by
  rw [record, writeEntry, Shard.get_put]
  simp only [buildKey_bytes_inj, record]

theorem record_deleteEntry :
    record (storage.deleteEntry key.bytes []) other =
      if key = other then none else record storage other := by
  rw [record, deleteEntry, Shard.get_delete]
  simp only [buildKey_bytes_inj, record]

end

/-- What the records of a full-text index say. -/
structure TextContent where
  postings : String → Option (List Posting)
  reverse : Bytes → Option (List String)
  total : Nat

namespace TextContent

/-- The postings of a term; a term without record has none. -/
def view (content : TextContent) (term : String) : List Posting :=
  (content.postings term).getD []

def withPostings (content : TextContent) (term : String) (postings : Option (List Posting)) :
    TextContent :=
  { content with postings := update content.postings term postings }

def withReverse (content : TextContent) (primaryKey : Bytes) (terms : Option (List String)) :
    TextContent :=
  { content with reverse := update content.reverse primaryKey terms }

def withTotal (content : TextContent) (total : Nat) : TextContent :=
  { content with total := total }

/-- Replace the posting of a document for a term. -/
def addPosting (primaryKey : Bytes) (term : String × List Nat × UInt32)
    (content : TextContent) : TextContent :=
  content.withPostings term.1 (some ((content.view term.1).filter (·.primaryKey ≠ primaryKey) ++
    [⟨primaryKey, term.2.1, term.2.2⟩]))

/-- Remove the posting of a document for a term. -/
def removePosting (primaryKey : Bytes) (term : String) (content : TextContent) : TextContent :=
  let postings := (content.view term).filter (·.primaryKey ≠ primaryKey)
  content.withPostings term (if postings = [] then none else some postings)

end TextContent

/-- An index holds the records for a content. -/
structure Stored (format : TextFormat) (index : FullTextIndex Cache) (content : TextContent) :
    Prop where
  postings : ∀ term,
    record index.storage (.term term) = (content.postings term).map format.postings.serialize
  reverse : ∀ primaryKey, record index.storage (.reverse primaryKey) =
    (content.reverse primaryKey).map format.terms.serialize
  total : index.totalDocuments = content.total

namespace Stored

variable {format : TextFormat} {index next : FullTextIndex Cache} {content : TextContent}

variable (stored : Stored format index content)

include stored

/-- Another record for a term changes its postings. -/
theorem withPostings {term : String} {postings : Option (List Posting)}
    (changed : ∀ key, record next.storage key =
      if .term term = key then postings.map format.postings.serialize
      else record index.storage key) (sameTotal : next.totalDocuments = index.totalDocuments) :
    Stored format next (content.withPostings term postings) := by
  refine ⟨fun other => ?_, fun primaryKey => ?_, sameTotal.trans stored.total⟩
  · rw [changed, stored.postings, TextContent.withPostings]
    by_cases same : other = term
    · simp [same]
    · simp [same, Ne.symm same]
  · rw [changed, if_neg (by simp), stored.reverse]
    rfl

variable {primaryKey : Bytes}

/-- Another record for a document changes its terms. -/
theorem withReverse {terms : Option (List String)} (changed : ∀ key, record next.storage key =
      if .reverse primaryKey = key then terms.map format.terms.serialize
      else record index.storage key) (sameTotal : next.totalDocuments = index.totalDocuments) :
    Stored format next (content.withReverse primaryKey terms) := by
  refine ⟨fun term => ?_, fun other => ?_, sameTotal.trans stored.total⟩
  · rw [changed, if_neg (by simp), stored.postings]
    rfl
  · rw [changed, stored.reverse, TextContent.withReverse]
    by_cases same : other = primaryKey
    · simp [same]
    · simp [same, Ne.symm same]

/-- The statistics of a document are not part of the content. -/
theorem of_stats {value : Option Bytes} (changed : ∀ key, record next.storage key =
      if .stats primaryKey = key then value else record index.storage key)
    (sameTotal : next.totalDocuments = index.totalDocuments) : Stored format next content :=
  ⟨fun term => by rw [changed, if_neg (by simp), stored.postings],
    fun other => by rw [changed, if_neg (by simp), stored.reverse], sameTotal.trans stored.total⟩

end Stored

namespace FullTextIndex

variable {format : TextFormat} {content after : TextContent} {α β : Type}

variable (Cache) in
/-- A computation gives a value and takes one content to another. -/
def Takes (format : TextFormat) (run : TextM Cache α) (content : TextContent) (value : α)
    (after : TextContent) : Prop :=
  ∀ index, Stored format index content →
    ∃ next, run index = .ok value next ∧ next.tokenizerConfig = index.tokenizerConfig ∧
      Stored format next after

theorem takes_pure (value : α) : Takes Cache format (pure value) content value content :=
  fun index stored => ⟨index, rfl, rfl, stored⟩

theorem takes_bind {first : TextM Cache α} {rest : α → TextM Cache β} {value : α} {result : β}
    {last : TextContent} (firstTakes : Takes Cache format first content value after)
    (restTakes : Takes Cache format (rest value) after result last) :
    Takes Cache format (first >>= rest) content result last := by
  intro index stored
  obtain ⟨middle, ran, sameConfig, middleStored⟩ := firstTakes index stored
  obtain ⟨next, restRan, restConfig, final⟩ := restTakes middle middleStored
  exact ⟨next, (bind_ok ran).trans restRan, restConfig.trans sameConfig, final⟩

/-- Items that each change the content change it one after the other. -/
theorem takes_forM {act : α → TextM Cache PUnit} {change : α → TextContent → TextContent}
    (each : ∀ item content, Takes Cache format (act item) content ⟨⟩ (change item content))
    (items : List α) (content : TextContent) :
    Takes Cache format (forM items act) content ⟨⟩
      (items.foldl (fun content item => change item content) content) := by
  induction items generalizing content with
  | nil => exact takes_pure _
  | cons item rest ih =>
    exact takes_bind (each item content) (ih _)

section

variable (content) (primaryKey : Bytes) (term : String)

theorem takes_storePostings (postings : List Posting) :
    Takes Cache format (storePostings format term postings) content ⟨⟩
      (content.withPostings term (some postings)) :=
  fun index stored => ⟨_, rfl, rfl, stored.withPostings
    (fun key => record_writeEntry index.storage (.term term) key _) rfl⟩

theorem takes_deletePostings :
    Takes Cache format (deleteRecord (buildTermKey term)) content ⟨⟩
      (content.withPostings term none) :=
  fun index stored => ⟨_, rfl, rfl, stored.withPostings
    (fun key => record_deleteEntry index.storage (.term term) key) rfl⟩

theorem takes_writeTerms (terms : List String) :
    Takes Cache format (writeRecord (buildReverseKey primaryKey) (format.terms.serialize terms))
      content ⟨⟩ (content.withReverse primaryKey (some terms)) :=
  fun index stored => ⟨_, rfl, rfl, stored.withReverse
    (fun key => record_writeEntry index.storage (.reverse primaryKey) key _) rfl⟩

theorem takes_deleteTerms :
    Takes Cache format (deleteRecord (buildReverseKey primaryKey)) content ⟨⟩
      (content.withReverse primaryKey none) :=
  fun index stored => ⟨_, rfl, rfl, stored.withReverse
    (fun key => record_deleteEntry index.storage (.reverse primaryKey) key) rfl⟩

theorem takes_storeDocStats (stats : DocumentStats) :
    Takes Cache format (storeDocStats format primaryKey stats) content ⟨⟩ content :=
  fun index stored => ⟨_, rfl, rfl, stored.of_stats
    (fun key => record_writeEntry index.storage (.stats primaryKey) key _) rfl⟩

theorem takes_deleteDocStats :
    Takes Cache format (deleteRecord (buildDocStatsKey primaryKey)) content ⟨⟩ content :=
  fun index stored => ⟨_, rfl, rfl, stored.of_stats
    (fun key => record_deleteEntry index.storage (.stats primaryKey) key) rfl⟩

theorem takes_modifyTotal (change : Nat → Nat) :
    Takes Cache format (modify fun index =>
      { index with totalDocuments := change index.totalDocuments }) content ⟨⟩
        (content.withTotal (change content.total)) :=
  fun _ stored => ⟨_, rfl, rfl, stored.postings, stored.reverse, congrArg change stored.total⟩

/-- A record is read as it is stored. -/
theorem takes_readRecord (key : RecordKey) {value : Option Bytes}
    (held : ∀ index : FullTextIndex Cache, Stored format index content →
      record index.storage key = value) :
    Takes Cache format (readRecord key.bytes) content value content := by
  intro index stored
  have same other : record (index.storage.readEntry key.bytes []).2 other =
      record index.storage other := by rw [record, readEntry_store, readEntry_config, record]
  refine ⟨{ index with storage := (index.storage.readEntry key.bytes []).2 }, ?_, rfl,
    fun _ => (same _).trans (stored.postings _), fun _ => (same _).trans (stored.reverse _),
    stored.total⟩
  rw [← held index stored, readRecord, run_modifyGet]
  simp only [readEntry_fst]
  rfl

/-- The postings of a term are read as they are. -/
theorem takes_getPostings : Takes Cache format (getPostings format term) content (content.view term)
    content := by
  refine takes_bind (takes_readRecord content (.term term) fun _ stored => stored.postings term) ?_
  rw [TextContent.view]
  cases content.postings term with
  | none => exact takes_pure _
  | some postings =>
    simp only [Option.map_some, format.postings.deserialize_serialize]
    exact takes_pure _

theorem takes_addPosting (frequency : String × List Nat × UInt32) :
    Takes Cache format (addPosting format primaryKey frequency) content ⟨⟩
      (content.addPosting primaryKey frequency) :=
  takes_bind (takes_getPostings content frequency.1) (takes_storePostings content frequency.1 _)

theorem takes_removePosting :
    Takes Cache format (removePosting format primaryKey term) content ⟨⟩
      (content.removePosting primaryKey term) := by
  refine takes_bind (takes_getPostings content term) ?_
  rw [TextContent.removePosting]
  by_cases last : (content.view term).filter (·.primaryKey ≠ primaryKey) = []
  · simp only [last, if_true]
    exact takes_deletePostings content term
  · simp only [last, if_false]
    exact takes_storePostings content term _

end

variable {primaryKey : Bytes}

/-- The content behind the insert of a document with some terms. -/
def insertedContent (primaryKey : Bytes) (frequencies : TermFrequencies)
    (content : TextContent) : TextContent :=
  ((frequencies.foldl (fun content term => content.addPosting primaryKey term) content).withReverse
    primaryKey (some (frequencies.map (·.1)))).withTotal (content.total + 1)

/-- The content behind the deletion of a document with some terms. -/
def deletedContent (primaryKey : Bytes) (terms : List String) (content : TextContent) :
    TextContent :=
  ((terms.foldl (fun content term => content.removePosting primaryKey term) content).withReverse
    primaryKey none).withTotal (content.total - 1)

def tokensOf (functions : TextFunctions) (config : TokenizerConfig) (entry : IndexEntry) :
    List String :=
  functions.tokenize config (functions.fromUtf8Lossy entry.indexedValue)

/-- What no change of an item touches is untouched by all of them. -/
theorem foldl_keeps {γ : Type} (change : α → TextContent → TextContent) (observe : TextContent → γ)
    (keeps : ∀ item content, observe (change item content) = observe content) (items : List α)
    (content : TextContent) :
    observe (items.foldl (fun content item => change item content) content) = observe content := by
  induction items generalizing content with
  | nil => rfl
  | cons item rest ih =>
    rw [foldl_cons, ih, keeps]

/-- An insert adds a posting for each term, visited in the order at hand. -/
theorem run_insert {index : FullTextIndex Cache} (stored : Stored format index content)
    (functions : TextFunctions) (order : VisitOrder (String × List Nat × UInt32))
    (entry : IndexEntry) :
    ∃ next, insert functions format order entry index = .ok ⟨⟩ next ∧
      next.tokenizerConfig = index.tokenizerConfig ∧
        Stored format next (insertedContent entry.primaryKey
          (order.visit (termFrequencies (tokensOf functions index.tokenizerConfig entry)))
          content) := by
  rw [insert, get_bind, insertedContent]
  refine takes_bind (takes_storeDocStats content entry.primaryKey _) ?_ index stored
  refine takes_bind (takes_forM
    (fun term content => takes_addPosting content entry.primaryKey term) _ content) ?_
  refine takes_bind (takes_writeTerms _ entry.primaryKey _) ?_
  have total := foldl_keeps (TextContent.addPosting entry.primaryKey) TextContent.total
    (fun _ _ => rfl)
    (order.visit (termFrequencies (tokensOf functions index.tokenizerConfig entry))) content
  rw [← total]
  exact takes_modifyTotal _ (· + 1)

/-- A document without a record of its terms is not deleted. -/
theorem takes_delete_absent (absent : content.reverse primaryKey = none) :
    Takes Cache format (delete format primaryKey) content ⟨⟩ content := by
  refine takes_bind (takes_readRecord content (.reverse primaryKey) fun _ stored =>
    stored.reverse primaryKey) ?_
  rw [absent]
  exact takes_pure _

/-- A deletion removes the posting for each term. -/
theorem takes_delete_present {terms : List String}
    (present : content.reverse primaryKey = some terms) :
    Takes Cache format (delete format primaryKey) content ⟨⟩
      (deletedContent primaryKey terms content) := by
  refine takes_bind (takes_readRecord content (.reverse primaryKey) fun _ stored =>
    stored.reverse primaryKey) ?_
  simp only [present, Option.map_some, format.terms.deserialize_serialize]
  refine takes_bind (takes_pure terms) ?_
  refine takes_bind (takes_forM
    (fun term content => takes_removePosting content primaryKey term) terms content) ?_
  refine takes_bind (takes_deleteDocStats _ primaryKey) ?_
  refine takes_bind (takes_deleteTerms _ primaryKey) ?_
  have total := foldl_keeps (TextContent.removePosting primaryKey) TextContent.total
    (fun _ _ => rfl) terms content
  rw [deletedContent, ← total]
  exact takes_modifyTotal _ (· - 1)

end FullTextIndex

open FullTextIndex

variable (tokens : List String)

/-- Where a term stands among tokens. -/
def positionsOf (tokens : List String) (term : String) : List Nat := itemsOf tokens.zipIdx term

theorem mem_positionsOf {tokens : List String} {term : String} {position : Nat} :
    position ∈ positionsOf tokens term ↔ tokens[position]? = some term := by
  rw [positionsOf, itemsOf]
  simp [mem_zipIdx_iff_getElem?]

theorem positionsOf_ascending (term : String) : (positionsOf tokens term).Pairwise (· < ·) := by
  have all : (tokens.zipIdx.map (·.2)).Pairwise (· < ·) := by
    rw [zipIdx_map_snd]
    exact pairwise_lt_range'
  exact all.sublist (List.Sublist.map _ filter_sublist)

theorem length_positionsOf (term : String) :
    (positionsOf tokens term).length = tokens.count term := by
  have tokensAgain : tokens.zipIdx.map (·.1) = tokens := zipIdx_map_fst 0 tokens
  rw [positionsOf, itemsOf, length_map, ← countP_eq_length_filter]
  conv_rhs => rw [← tokensAgain, List.count, countP_map]
  rfl

/-- The posting of a document for a term. -/
def postingOf (primaryKey : Bytes) (tokens : List String) (term : String) : Posting :=
  ⟨primaryKey, positionsOf tokens term, UInt32.ofNat (tokens.count term)⟩

/-- The terms of a document are its tokens, each once, with their positions and their number up
to the width of the frequency. -/
theorem termFrequencies_eq :
    termFrequencies tokens =
      (grouped tokens.zipIdx).map fun group => (group.1, group.2, UInt32.ofNat group.2.length) := by
  have counted : ∀ (term : String) (position : Nat) (groups : List (String × List Nat)),
      countTerm term position
          (groups.map fun group => (group.1, group.2, UInt32.ofNat group.2.length)) =
        (addToGroup term position groups).map fun group =>
          (group.1, group.2, UInt32.ofNat group.2.length) := by
    intro term position groups
    induction groups with
    | nil => rfl
    | cons group rest ih =>
      rw [map_cons, countTerm, addToGroup]
      split
      · simp
      · rw [ih, map_cons]
  exact @foldl_hom _ _ _ (map fun group => (group.1, group.2, UInt32.ofNat group.2.length))
    (fun groups token => addToGroup token.1 token.2 groups)
    (fun frequencies token => countTerm token.1 token.2 frequencies) tokens.zipIdx []
    fun groups token => counted token.1 token.2 groups

theorem termFrequencies_spec :
    ((termFrequencies tokens).map (·.1)).Nodup ∧
      (∀ term, term ∈ (termFrequencies tokens).map (·.1) ↔ term ∈ tokens) ∧
      ∀ frequency ∈ termFrequencies tokens, frequency.2 =
        (positionsOf tokens frequency.1, UInt32.ofNat (tokens.count frequency.1)) := by
  obtain ⟨distinct, collects⟩ := grouped_spec tokens.zipIdx
  have keys : (termFrequencies tokens).map (·.1) = (grouped tokens.zipIdx).map (·.1) := by
    rw [termFrequencies_eq, map_map]
    rfl
  refine ⟨keys ▸ distinct, fun term => ?_, fun frequency mem => ?_⟩
  · rw [keys, mem_keys_grouped]
    simp [mem_iff_getElem?]
  · rw [termFrequencies_eq] at mem
    obtain ⟨group, inGroups, rfl⟩ := mem_map.mp mem
    have own : group.2 = positionsOf tokens group.1 :=
      (collected_of_mem distinct inGroups).symm.trans (collects group.1)
    simp only [own, length_positionsOf]

namespace TextContent

variable (content : TextContent) (primaryKey : Bytes) (wanted : String)

theorem view_withPostings (term : String) (postings : Option (List Posting)) :
    (content.withPostings term postings).view wanted =
      if wanted = term then postings.getD [] else content.view wanted := by
  rw [view, withPostings]
  by_cases same : wanted = term
  · simp [same]
  · simp [same, view]

theorem view_addPosting (frequency : String × List Nat × UInt32) :
    (content.addPosting primaryKey frequency).view wanted = if wanted = frequency.1 then
        (content.view wanted).filter (·.primaryKey ≠ primaryKey) ++
          [⟨primaryKey, frequency.2.1, frequency.2.2⟩]
      else content.view wanted := by
  rw [addPosting, view_withPostings]
  split
  next same => rw [Option.getD_some, same]
  next => rfl

theorem view_removePosting (term : String) :
    (content.removePosting primaryKey term).view wanted =
      if wanted = term then (content.view wanted).filter (·.primaryKey ≠ primaryKey)
      else content.view wanted := by
  rw [removePosting, view_withPostings]
  split
  next same =>
    rw [same]
    split
    next empty => rw [Option.getD_none, empty]
    next => rw [Option.getD_some]
  next => rfl

/-- The postings behind the deletion of a document. -/
theorem view_deletedContent (terms : List String) :
    (deletedContent primaryKey terms content).view wanted =
      if wanted ∈ terms then (content.view wanted).filter (·.primaryKey ≠ primaryKey)
      else content.view wanted := by
  change (terms.foldl (fun content term => content.removePosting primaryKey term) content).view
    wanted = _
  induction terms generalizing content with
  | nil => rfl
  | cons term rest ih =>
    rw [foldl_cons, ih, view_removePosting]
    by_cases first : wanted = term
    · simp [first]
    · simp [first]

/-- The postings behind the insert of a document with different terms. -/
theorem view_insertedContent {frequencies : TermFrequencies}
    (distinct : (frequencies.map (·.1)).Nodup) :
    (∀ frequency ∈ frequencies, frequency.1 = wanted →
        (insertedContent primaryKey frequencies content).view wanted =
          (content.view wanted).filter (·.primaryKey ≠ primaryKey) ++
            [⟨primaryKey, frequency.2.1, frequency.2.2⟩]) ∧
      (wanted ∉ frequencies.map (·.1) →
        (insertedContent primaryKey frequencies content).view wanted = content.view wanted) := by
  change (∀ frequency ∈ frequencies, frequency.1 = wanted →
      (frequencies.foldl (fun content term => content.addPosting primaryKey term) content).view
        wanted = _) ∧ (_ →
      (frequencies.foldl (fun content term => content.addPosting primaryKey term) content).view
        wanted = _)
  induction frequencies generalizing content with
  | nil => simp
  | cons first rest ih =>
    rw [map_cons, nodup_cons] at distinct
    obtain ⟨listed, unlisted⟩ := ih (content.addPosting primaryKey first)
      distinct.2
    rw [foldl_cons]
    refine ⟨fun frequency mem hit => ?_, fun absent => ?_⟩
    · rcases mem_cons.mp mem with rfl | inRest
      · rw [unlisted (hit ▸ distinct.1), view_addPosting, if_pos hit.symm]
      · have other : wanted ≠ first.1 := by
          rintro rfl
          exact distinct.1 (hit ▸ mem_map_of_mem inRest)
        rw [listed frequency inRest hit, view_addPosting, if_neg other]
    · rw [map_cons, mem_cons, not_or] at absent
      rw [unlisted absent.2, view_addPosting, if_neg absent.1]

theorem reverse_insertedContent (frequencies : TermFrequencies) :
    (insertedContent primaryKey frequencies content).reverse =
      update content.reverse primaryKey (some (frequencies.map (·.1))) := by
  have kept := foldl_keeps (TextContent.addPosting primaryKey) TextContent.reverse
    (fun _ _ => rfl) frequencies content
  rw [insertedContent, withTotal, withReverse, kept]

theorem reverse_deletedContent (terms : List String) :
    (deletedContent primaryKey terms content).reverse = update content.reverse primaryKey none := by
  have kept := foldl_keeps (TextContent.removePosting primaryKey) TextContent.reverse
    (fun _ _ => rfl) terms content
  rw [deletedContent, withTotal, withReverse, kept]

end TextContent

/-- The documents of an index: their primary keys and their tokens. -/
abbrev Documents := List (Bytes × List String)

structure Mirrors (documents : Documents) (content : TextContent) : Prop where
  distinct : (documents.map (·.1)).Nodup
  once : ∀ term, ((content.view term).map (·.primaryKey)).Nodup
  mem_view : ∀ term posting, posting ∈ content.view term ↔
    ∃ tokens, (posting.primaryKey, tokens) ∈ documents ∧ term ∈ tokens ∧
      posting = postingOf posting.primaryKey tokens term
  reverse : ∀ primaryKey terms, content.reverse primaryKey = some terms →
    ∃ tokens, (primaryKey, tokens) ∈ documents ∧ ∀ term, term ∈ terms ↔ term ∈ tokens
  absent : ∀ primaryKey, content.reverse primaryKey = none →
    ∀ document ∈ documents, document.1 ≠ primaryKey
  total : content.total = documents.length

namespace Mirrors

variable {documents : Documents} {content : TextContent} {primaryKey : Bytes}

variable {tokens : List String} {frequencies : TermFrequencies}

/-- A document is indexed with one list of tokens. -/
theorem tokens_eq (mirrors : Mirrors documents content) {others : List String}
    (mem : (primaryKey, tokens) ∈ documents) (otherMember : (primaryKey, others) ∈ documents) :
    tokens = others :=
  congrArg Prod.snd (inj_on_of_nodup_map mirrors.distinct mem otherMember rfl)

/-- Documents without one that is not among them. -/
theorem filter_absent (absent : ∀ document ∈ documents, document.1 ≠ primaryKey) :
    documents.filter (·.1 ≠ primaryKey) = documents :=
  filter_eq_self.mpr fun document mem => decide_eq_true (absent document mem)

variable (mirrors : Mirrors documents content)

include mirrors

theorem length_filter (mem : (primaryKey, tokens) ∈ documents) :
    (documents.filter (·.1 ≠ primaryKey)).length = documents.length - 1 := by
  have some : 0 < (documents.filter (·.1 = primaryKey)).length :=
    length_pos_of_mem (mem_filter.mpr ⟨mem, by simp⟩)
  have few := length_filter_key_le mirrors.distinct primaryKey
  have parts : documents.length = (documents.filter (·.1 = primaryKey)).length +
      (documents.filter (·.1 ≠ primaryKey)).length := by
    simpa [decide_not] using length_eq_length_filter_add (l := documents)
      (fun document => decide (document.1 = primaryKey))
  omega

section

variable (new : ∀ document ∈ documents, document.1 ≠ primaryKey)

include new

/-- A document that is not indexed has no postings. -/
theorem view_new (term : String) :
    ∀ posting ∈ content.view term, posting.primaryKey ≠ primaryKey := by
  intro posting mem
  obtain ⟨tokens, indexed, _⟩ := (mirrors.mem_view term posting).mp mem
  exact new _ indexed

/-- The postings with a new document. -/
theorem view_insert (visited : frequencies.Perm (termFrequencies tokens)) (term : String) :
    (insertedContent primaryKey frequencies content).view term =
      content.view term ++ if term ∈ tokens then [postingOf primaryKey tokens term] else [] := by
  obtain ⟨distinct, keys, values⟩ := termFrequencies_spec tokens
  have sameKeys := visited.map (·.1)
  obtain ⟨listed, unlisted⟩ := content.view_insertedContent primaryKey term
    (sameKeys.nodup_iff.mpr distinct)
  have others : (content.view term).filter (·.primaryKey ≠ primaryKey) = content.view term :=
    filter_eq_self.mpr fun posting mem =>
      decide_eq_true (mirrors.view_new new term posting mem)
  by_cases isToken : term ∈ tokens
  · obtain ⟨frequency, mem, rfl⟩ := mem_map.mp ((keys term).mpr isToken)
    rw [listed frequency (visited.mem_iff.mpr mem) rfl, others, values frequency mem,
      if_pos isToken, postingOf]
  · rw [unlisted (fun mem => isToken ((keys term).mp (sameKeys.mem_iff.mp mem))),
      if_neg isToken, append_nil]

/-- The insert of a new document. -/
theorem insert (tokens : List String) (visited : frequencies.Perm (termFrequencies tokens)) :
    Mirrors (documents ++ [(primaryKey, tokens)])
      (insertedContent primaryKey frequencies content) where
  distinct := by
    rw [map_append, map_singleton, nodup_append_comm, singleton_append, nodup_cons]
    refine ⟨fun mem => ?_, mirrors.distinct⟩
    obtain ⟨document, indexed, same⟩ := mem_map.mp mem
    exact new document indexed same
  once term := by
    rw [mirrors.view_insert new visited]
    split
    · rw [map_append, map_singleton, nodup_append_comm, singleton_append, nodup_cons]
      refine ⟨fun mem => ?_, mirrors.once term⟩
      obtain ⟨posting, inView, same⟩ := mem_map.mp mem
      exact mirrors.view_new new term posting inView same
    · rw [append_nil]
      exact mirrors.once term
  mem_view term posting := by
    rw [mirrors.view_insert new visited, mem_append, mirrors.mem_view]
    simp only [mem_append, mem_singleton, Prod.mk.injEq, or_and_right, exists_or]
    refine or_congr_right ?_
    by_cases isToken : term ∈ tokens
    · rw [if_pos isToken, mem_singleton]
      constructor
      · rintro rfl
        exact ⟨tokens, ⟨rfl, rfl⟩, isToken, rfl⟩
      · rintro ⟨_, ⟨samePk, rfl⟩, _, isPosting⟩
        rwa [samePk] at isPosting
    · simp [isToken]
  reverse other terms := by
    obtain ⟨_, keys, _⟩ := termFrequencies_spec tokens
    rw [content.reverse_insertedContent]
    by_cases same : other = primaryKey
    · subst same
      rw [update_self, Option.some.injEq]
      rintro rfl
      refine ⟨tokens, by simp, fun term => ?_⟩
      rw [(visited.map (·.1)).mem_iff, keys]
    · rw [update_of_ne same]
      intro stored
      obtain ⟨others, mem, sameTerms⟩ := mirrors.reverse other terms stored
      exact ⟨others, mem_append_left _ mem, sameTerms⟩
  absent other := by
    rw [content.reverse_insertedContent]
    by_cases same : other = primaryKey
    · subst same
      simp
    · rw [update_of_ne same]
      intro missing document mem
      rcases mem_append.mp mem with old | isNew
      · exact mirrors.absent other missing document old
      · rw [mem_singleton.mp isNew]
        exact Ne.symm same
  total := by
    rw [insertedContent, TextContent.withTotal, mirrors.total, length_append]
    rfl

end

/-- The deletion of a document. -/
theorem delete {terms : List String} (present : content.reverse primaryKey = some terms) :
    Mirrors (documents.filter (·.1 ≠ primaryKey)) (deletedContent primaryKey terms content) := by
  obtain ⟨tokens, indexed, sameTerms⟩ := mirrors.reverse primaryKey terms present
  -- a document has no postings for terms that are not listed for it
  have view : ∀ term, (deletedContent primaryKey terms content).view term =
      (content.view term).filter (·.primaryKey ≠ primaryKey) := by
    intro term
    rw [content.view_deletedContent]
    split
    next => rfl
    next unlisted =>
      have others : ∀ posting ∈ content.view term, posting.primaryKey ≠ primaryKey := by
        rintro posting mem rfl
        obtain ⟨others, otherIndexed, isToken, _⟩ := (mirrors.mem_view term posting).mp mem
        rw [mirrors.tokens_eq otherIndexed indexed, ← sameTerms] at isToken
        exact unlisted isToken
      exact (filter_eq_self.mpr fun posting mem =>
        decide_eq_true (others posting mem)).symm
  exact {
    distinct := mirrors.distinct.sublist (List.Sublist.map _ filter_sublist)
    once := fun term => by
      rw [view]
      exact (mirrors.once term).sublist (List.Sublist.map _ filter_sublist)
    mem_view := fun term posting => by
      rw [view, mem_filter, mirrors.mem_view]
      simp only [mem_filter, decide_eq_true_eq]
      constructor
      · rintro ⟨⟨others, mem, rest⟩, differs⟩
        exact ⟨others, ⟨mem, differs⟩, rest⟩
      · rintro ⟨others, ⟨mem, differs⟩, rest⟩
        exact ⟨⟨others, mem, rest⟩, differs⟩
    reverse := fun other others => by
      rw [content.reverse_deletedContent]
      by_cases same : other = primaryKey
      · simp [same]
      · rw [update_of_ne same]
        intro stored
        obtain ⟨otherTokens, mem, otherTerms⟩ := mirrors.reverse other others stored
        exact ⟨otherTokens, mem_filter.mpr ⟨mem, decide_eq_true same⟩, otherTerms⟩
    absent := fun other => by
      rw [content.reverse_deletedContent]
      by_cases same : other = primaryKey
      · intro _ document mem
        rw [same]
        exact of_decide_eq_true (mem_filter.mp mem).2
      · rw [update_of_ne same]
        intro missing document mem
        exact mirrors.absent other missing document (mem_of_mem_filter mem)
    total := by
      rw [deletedContent, TextContent.withTotal, mirrors.total, mirrors.length_filter indexed] }

end Mirrors

end Nanograph.Idx
