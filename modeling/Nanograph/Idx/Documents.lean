import Nanograph.Idx.Postings

/-!
# Runs of a full-text index

Documents are inserted, deleted and replaced, and a run keeps the list of the documents that are
indexed at the time, with their tokens. In every run that inserts only documents that are not
indexed and replaces a document under its primary key, the postings and the number of documents
are those of this list, but for the width of the frequencies.
-/

namespace Nanograph.Idx

open List Foundation Kvt FullTextIndex

/-- Calls that change a full-text index; where terms are visited in an order that the index does
not choose, the call has the order. -/
inductive TextCall where
  | insert (order : VisitOrder (String × List Nat × UInt32)) (entry : IndexEntry)
  | delete (primaryKey : Bytes)
  | update (order : VisitOrder (String × List Nat × UInt32)) (oldEntry newEntry : IndexEntry)

variable {Cache : Type} [LruCache Cache]

variable (Cache) in
/-- A full-text index and the documents that it should have. -/
structure TextRun where
  index : FullTextIndex Cache
  documents : Documents

/-- The postings of a term are one for each document with the term, with its positions in
ascending order and their number. -/
structure ListsDocuments (documents : Documents) (term : String) (postings : List Posting) :
    Prop where
  once : (postings.map (·.primaryKey)).Nodup
  mem_iff : ∀ primaryKey, primaryKey ∈ postings.map (·.primaryKey) ↔
    ∃ tokens, (primaryKey, tokens) ∈ documents ∧ term ∈ tokens
  ascending : ∀ posting ∈ postings, posting.positions.Pairwise (· < ·)
  positions : ∀ posting ∈ postings, ∀ tokens, (posting.primaryKey, tokens) ∈ documents →
    ∀ position, position ∈ posting.positions ↔ tokens[position]? = some term
  frequency : ∀ posting ∈ postings, posting.frequency.toNat = posting.positions.length

namespace TextRun

variable (functions : TextFunctions) (format : TextFormat)

variable (Cache) in
/-- A new index over an empty shard. -/
def start (config : PersistenceConfig) (tokenizerConfig : TokenizerConfig) : TextRun Cache :=
  ⟨⟨.new Cache config Shard.empty, tokenizerConfig, 0⟩, []⟩

/-- What a call does to the index. -/
def call : TextCall → TextM Cache PUnit
  | .insert order entry => FullTextIndex.insert functions format order entry
  | .delete primaryKey => FullTextIndex.delete format primaryKey
  | .update order oldEntry newEntry => FullTextIndex.update functions format order oldEntry newEntry

def withDocument (run : TextRun Cache) (documents : Documents) (entry : IndexEntry) : Documents :=
  documents.filter (·.1 ≠ entry.primaryKey) ++
    [(entry.primaryKey, tokensOf functions run.index.tokenizerConfig entry)]

def documentsAfter (run : TextRun Cache) : TextCall → Documents
  | .insert _ entry => run.withDocument functions run.documents entry
  | .delete primaryKey => run.documents.filter (·.1 ≠ primaryKey)
  | .update _ oldEntry newEntry =>
    run.withDocument functions (run.documents.filter (·.1 ≠ oldEntry.primaryKey)) newEntry

def step : Machine (TextRun Cache) TextCall (Except IndexError Unit) :=
  fun run input =>
    match call functions format input run.index with
    | .ok _ index => (.ok (), ⟨index, run.documentsAfter functions input⟩)
    | .error error index => (.error error, ⟨index, run.documentsAfter functions input⟩)

/-- Documents are inserted when they are not indexed and replaced under their primary key. -/
def Admitted (run : TextRun Cache) : TextCall → Prop
  | .insert _ entry => ∀ document ∈ run.documents, document.1 ≠ entry.primaryKey
  | .delete _ => True
  | .update _ oldEntry newEntry => oldEntry.primaryKey = newEntry.primaryKey

/-- The postings of every term and the number of documents are those of the documents. -/
structure Accurate (run : TextRun Cache) : Prop where
  postings : ∀ term, ∃ postings next, getPostings format term run.index = .ok postings next ∧
    ListsDocuments run.documents term postings
  total : run.index.totalDocuments = run.documents.length

/-- The number of occurrences of every term in every document fits the frequency. -/
def Fits (run : TextRun Cache) : Prop :=
  ∀ document ∈ run.documents, ∀ term, document.2.count term < 2 ^ 32

/-- The records of the index are those of the documents. -/
def Consistent (run : TextRun Cache) : Prop :=
  ∃ content, Stored format run.index content ∧ Mirrors run.documents content

variable {functions format} {run : TextRun Cache}

theorem consistent_start (config : PersistenceConfig) (tokenizerConfig : TokenizerConfig) :
    (start Cache config tokenizerConfig).Consistent format := by
  refine ⟨⟨fun _ => none, fun _ => none, 0⟩, ⟨fun _ => rfl, fun _ => rfl, rfl⟩, ?_⟩
  constructor <;> simp [start, TextContent.view]

/-- A new document is inserted. -/
theorem Consistent.insert (consistent : run.Consistent format)
    (order : VisitOrder (String × List Nat × UInt32)) {entry : IndexEntry}
    (new : ∀ document ∈ run.documents, document.1 ≠ entry.primaryKey) :
    ∃ next, FullTextIndex.insert functions format order entry run.index = .ok ⟨⟩ next ∧
      Consistent format ⟨next, run.withDocument functions run.documents entry⟩ := by
  obtain ⟨content, stored, mirrors⟩ := consistent
  obtain ⟨next, ran, _, nextStored⟩ := run_insert stored functions order entry
  refine ⟨next, ran, _, nextStored, ?_⟩
  rw [withDocument, Mirrors.filter_absent new]
  exact mirrors.insert new _ (order.perm _)

/-- A document is deleted, if it is indexed. -/
theorem Consistent.delete (consistent : run.Consistent format) (primaryKey : Bytes) :
    ∃ next, FullTextIndex.delete format primaryKey run.index = .ok ⟨⟩ next ∧
      next.tokenizerConfig = run.index.tokenizerConfig ∧
        Consistent format ⟨next, run.documents.filter (·.1 ≠ primaryKey)⟩ := by
  obtain ⟨content, stored, mirrors⟩ := consistent
  cases listed : content.reverse primaryKey with
  | none =>
    obtain ⟨next, ran, sameConfig, nextStored⟩ := takes_delete_absent listed run.index stored
    refine ⟨next, ran, sameConfig, content, nextStored, ?_⟩
    rwa [Mirrors.filter_absent (mirrors.absent primaryKey listed)]
  | some terms =>
    obtain ⟨next, ran, sameConfig, nextStored⟩ := takes_delete_present listed run.index stored
    exact ⟨next, ran, sameConfig, _, nextStored, mirrors.delete listed⟩

/-- Admitted calls keep the records those of the documents. -/
theorem Consistent.step {input : TextCall} (consistent : run.Consistent format)
    (admitted : run.Admitted input) :
    (TextRun.step functions format run input).2.Consistent format := by
  cases input with
  | insert order entry =>
    obtain ⟨next, ran, nextConsistent⟩ := consistent.insert order admitted
    rw [TextRun.step, call, ran]
    exact nextConsistent
  | delete primaryKey =>
    obtain ⟨next, ran, _, nextConsistent⟩ := consistent.delete primaryKey
    rw [TextRun.step, call, ran]
    exact nextConsistent
  | update order oldEntry newEntry =>
    obtain ⟨middle, deleted, sameConfig, middleConsistent⟩ :=
      consistent.delete oldEntry.primaryKey
    have new : ∀ document ∈ run.documents.filter (·.1 ≠ oldEntry.primaryKey),
        document.1 ≠ newEntry.primaryKey := by
      intro document mem
      have differs := of_decide_eq_true (mem_filter.mp mem).2
      rwa [show oldEntry.primaryKey = newEntry.primaryKey from admitted] at differs
    obtain ⟨next, inserted, nextConsistent⟩ := middleConsistent.insert order new
    have ran : call functions format (.update order oldEntry newEntry) run.index =
        .ok ⟨⟩ next := (bind_ok deleted).trans inserted
    rw [TextRun.step, ran]
    rwa [withDocument, sameConfig] at nextConsistent

/-- In a run of admitted calls the records are always those of the documents. -/
theorem consistent_final {config : PersistenceConfig} {tokenizerConfig : TokenizerConfig}
    {calls : List TextCall}
    (admitted : (TextRun.step functions format).Along Admitted (start Cache config tokenizerConfig)
      calls) :
    ((TextRun.step functions format).final (start Cache config tokenizerConfig) calls).Consistent
      format :=
  Machine.invariant_along (Consistent format) (fun _ _ => Consistent.step)
    (consistent_start config tokenizerConfig) admitted

/-- The postings of a term are those of the documents when the number of its occurrences fits. -/
theorem listsDocuments_iff {documents : Documents} {content : TextContent}
    (mirrors : Mirrors documents content) (term : String) :
    ListsDocuments documents term (content.view term) ↔
      ∀ document ∈ documents, document.2.count term < 2 ^ 32 := by
  have frequency : ∀ primaryKey tokens,
      (postingOf primaryKey tokens term).frequency.toNat = tokens.count term % 2 ^ 32 :=
    fun _ _ => UInt32.toNat_ofNat'
  constructor
  · rintro lists ⟨primaryKey, tokens⟩ mem
    by_cases isToken : term ∈ tokens
    · have listed : postingOf primaryKey tokens term ∈ content.view term :=
        (mirrors.mem_view term _).mpr ⟨tokens, mem, isToken, rfl⟩
      have exactly := lists.frequency _ listed
      rw [frequency, postingOf, length_positionsOf] at exactly
      rw [← exactly]
      exact Nat.mod_lt _ (by decide)
    · rw [count_eq_zero_of_not_mem isToken]
      decide
  · intro fits
    have shape : ∀ posting ∈ content.view term, ∀ tokens, (posting.primaryKey, tokens) ∈ documents →
          posting = postingOf posting.primaryKey tokens term := by
      intro posting mem tokens indexed
      obtain ⟨others, otherIndexed, _, isPosting⟩ := (mirrors.mem_view term posting).mp mem
      rwa [mirrors.tokens_eq otherIndexed indexed] at isPosting
    have indexed : ∀ posting ∈ content.view term, ∃ tokens,
        (posting.primaryKey, tokens) ∈ documents ∧ term ∈ tokens ∧
          posting = postingOf posting.primaryKey tokens term :=
      fun posting => (mirrors.mem_view term posting).mp
    refine ⟨mirrors.once term, fun primaryKey => ⟨?_, ?_⟩, ?_, ?_, ?_⟩
    · intro mem
      obtain ⟨posting, inView, rfl⟩ := mem_map.mp mem
      obtain ⟨tokens, isIndexed, isToken, _⟩ := indexed posting inView
      exact ⟨tokens, isIndexed, isToken⟩
    · rintro ⟨tokens, isIndexed, isToken⟩
      exact mem_map.mpr ⟨postingOf primaryKey tokens term,
        (mirrors.mem_view term _).mpr ⟨tokens, isIndexed, isToken, rfl⟩, rfl⟩
    · intro posting mem
      obtain ⟨tokens, _, _, isPosting⟩ := indexed posting mem
      rw [isPosting]
      exact positionsOf_ascending tokens term
    · intro posting mem tokens isIndexed position
      rw [shape posting mem tokens isIndexed]
      exact mem_positionsOf
    · intro posting mem
      obtain ⟨tokens, isIndexed, _, isPosting⟩ := indexed posting mem
      rw [isPosting, frequency, Nat.mod_eq_of_lt (fits _ isIndexed), postingOf, length_positionsOf]

theorem Consistent.accurate_iff_fits (consistent : run.Consistent format) :
    run.Accurate format ↔ run.Fits := by
  obtain ⟨content, stored, mirrors⟩ := consistent
  have read : ∀ term, ∃ next, getPostings format term run.index = .ok (content.view term) next := by
    intro term
    obtain ⟨next, ran, _⟩ := takes_getPostings content term run.index stored
    exact ⟨next, ran⟩
  constructor
  · intro accurate document mem term
    obtain ⟨postings, next, ran, lists⟩ := accurate.postings term
    obtain ⟨other, otherRan⟩ := read term
    have same : postings = content.view term := by
      rw [otherRan] at ran
      exact (EStateM.Result.ok.inj ran).1.symm
    exact (listsDocuments_iff mirrors term).mp (same ▸ lists) document mem
  · intro fits
    refine ⟨fun term => ?_, stored.total.trans mirrors.total⟩
    obtain ⟨next, ran⟩ := read term
    exact ⟨_, next, ran, (listsDocuments_iff mirrors term).mpr fun document mem =>
      fits document mem term⟩

/-- In every run of admitted calls, for every tokenizer, the postings of every term and the
number of documents are those of the documents exactly when every number of occurrences fits. -/
theorem accurate_iff (functions : TextFunctions) (format : TextFormat) (config : PersistenceConfig)
    (tokenizerConfig : TokenizerConfig) (calls : List TextCall)
    (admitted : (TextRun.step functions format).Along Admitted (start Cache config tokenizerConfig)
      calls) :
    ((TextRun.step functions format).final (start Cache config tokenizerConfig) calls).Accurate
        format ↔
      ((TextRun.step functions format).final (start Cache config tokenizerConfig) calls).Fits :=
  (consistent_final admitted).accurate_iff_fits

variable (count : Nat) (primaryKey : Bytes)

/-- Text without characters beyond ASCII. -/
def asciiFunctions : TextFunctions where
  fromUtf8Lossy bytes := String.ofList (bytes.map fun byte => Char.ofNat byte.toNat)
  toLowercase text := String.ofList (text.toList.map Char.toLower)

def defaultTokenizer : TokenizerConfig := ⟨true, false, false, []⟩

/-- A document with one word some number of times. -/
def repeated (count : Nat) (primaryKey : Bytes) : IndexEntry :=
  ⟨(List.replicate count [97, 32]).flatten, primaryKey, none⟩

@[simp] theorem repeated_primaryKey : (repeated count primaryKey).primaryKey = primaryKey := rfl

theorem text_repeated :
    ((List.replicate count [97, 32]).flatten : Bytes).map
      (fun byte => Char.ofNat byte.toNat) = (List.replicate count ['a', ' ']).flatten := by
  induction count with
  | zero => rfl
  | succ count ih =>
    rw [replicate_succ, flatten_cons, map_append, ih, replicate_succ, flatten_cons]
    rfl

theorem words_repeated :
    ((List.replicate count ['a', ' ']).flatten.splitOnP fun symbol =>
      isWhitespace symbol || isAsciiPunctuation symbol) = List.replicate count ['a'] ++ [[]] := by
  induction count with
  | zero => rfl
  | succ count ih =>
    have first : (List.replicate (count + 1) ['a', ' ']).flatten =
        ['a'] ++ ' ' :: (List.replicate count ['a', ' ']).flatten := rfl
    rw [first, splitOnP_append_cons _ _ (by rfl), ih]
    rfl

theorem tokensOf_repeated :
    tokensOf asciiFunctions defaultTokenizer (repeated count primaryKey) =
      List.replicate count "a" := by
  simp only [tokensOf, repeated, asciiFunctions, TextFunctions.tokenize, defaultTokenizer,
    text_repeated, String.toList_ofList, words_repeated, filter_append,
    filter_replicate, map_append]
  simp

/-- Values written as their numbers, in unary. -/
def numbered (α : Type) [Encodable α] : Format α where
  serialize value := List.replicate (Encodable.encode value) 0
  deserialize bytes :=
    match Encodable.decode bytes.length with
    | some value => .ok value
    | none => .error (.serialization "no value has this number")
  deserialize_serialize value := by simp

instance : Encodable String :=
  Encodable.ofLeftInjection (fun text => text.toList.map Char.toNat)
    (fun codes => some (String.ofList (codes.map Char.ofNat))) fun text => by
      simp [Function.comp_def]

instance : Encodable DocumentStats :=
  Encodable.ofLeftInjection (fun stats => (stats.termCount, stats.uniqueTerms))
    (fun counts => some ⟨counts.1, counts.2⟩) fun _ => rfl

instance : Encodable Posting :=
  Encodable.ofLeftInjection
    (fun posting => (posting.primaryKey.map UInt8.toNat, posting.positions,
      posting.frequency.toNat))
    (fun parts => some ⟨parts.1.map UInt8.ofNat, parts.2.1, UInt32.ofNat parts.2.2⟩) fun _ => by
      simp [Function.comp_def]

/-- All records written as numbers. -/
def numberedFormat : TextFormat := ⟨numbered _, numbered _, numbered _⟩

theorem step_documents (functions : TextFunctions) (format : TextFormat) (run : TextRun Cache)
    (input : TextCall) :
    (TextRun.step functions format run input).2.documents = run.documentsAfter functions input := by
  rw [TextRun.step]
  split <;> rfl

/-- Calls for two documents, of which one is deleted again. -/
def twoDocuments : List TextCall :=
  [.insert .asListed (repeated 2 [1]), .insert .asListed (repeated 3 [2]), .delete [2]]

theorem admitted_twoDocuments (format : TextFormat) (config : PersistenceConfig) :
    (TextRun.step asciiFunctions format).Along Admitted (start Cache config defaultTokenizer)
      twoDocuments := by
  refine ⟨fun document mem => ?_, fun document mem => ?_, trivial, trivial⟩
  · cases mem
  · rw [step_documents] at mem
    rw [mem_singleton.mp mem]
    exact show ([1] : Bytes) ≠ [2] by decide

theorem documents_twoDocuments (format : TextFormat) (config : PersistenceConfig) :
    ((TextRun.step asciiFunctions format).final (start Cache config defaultTokenizer)
      twoDocuments).documents = [([1], List.replicate 2 "a")] := by
  rw [twoDocuments, Machine.final, Machine.final, Machine.final, Machine.final]
  simp only [step_documents, documentsAfter, withDocument, repeated_primaryKey]
  rw [show (start Cache config defaultTokenizer).index.tokenizerConfig = defaultTokenizer from rfl,
    tokensOf_repeated]
  rfl

/-- Two documents, of which one is deleted again. -/
theorem accurate_twoDocuments :
    (TextRun.step asciiFunctions numberedFormat).Along Admitted
        (start RecentEntries ⟨⟨⟨1⟩⟩, 10⟩ defaultTokenizer) twoDocuments ∧
      ((TextRun.step asciiFunctions numberedFormat).final
        (start RecentEntries ⟨⟨⟨1⟩⟩, 10⟩ defaultTokenizer) twoDocuments).Accurate
          numberedFormat := by
  refine ⟨admitted_twoDocuments _ _, (accurate_iff _ _ _ _ _
    (admitted_twoDocuments _ _)).mpr fun document mem term => ?_⟩
  rw [documents_twoDocuments, mem_singleton] at mem
  rw [mem]
  exact count_le_length.trans_lt (by simp)

/-- The postings of a document that is alone in the index. -/
theorem view_alone {tokens : List String} {content : TextContent} {term : String}
    (mirrors : Mirrors [(primaryKey, tokens)] content) (isToken : term ∈ tokens) :
    content.view term = [postingOf primaryKey tokens term] := by
  refine perm_singleton.mp ((perm_ext_iff_of_nodup (mirrors.once term).of_map
    (nodup_singleton _)).mpr fun posting => (mirrors.mem_view term posting).trans ?_)
  simp only [mem_singleton, Prod.mk.injEq]
  constructor
  · rintro ⟨_, ⟨samePk, rfl⟩, _, isPosting⟩
    rwa [samePk] at isPosting
  · rintro rfl
    exact ⟨tokens, ⟨rfl, rfl⟩, isToken, rfl⟩

theorem documents_repeated (format : TextFormat) (config : PersistenceConfig) (count : Nat) :
    ((TextRun.step asciiFunctions format).final (start Cache config defaultTokenizer)
      [.insert .asListed (repeated count [1])]).documents = [([1], List.replicate count "a")] := by
  rw [Machine.final, Machine.final, step_documents, documentsAfter, withDocument]
  exact congrArg (fun tokens => [([1], tokens)]) (tokensOf_repeated count [1])

/-- A document with a word some number of times gets a posting with all positions and the
frequency zero. -/
def CountedAsZero (count : Nat) : Prop :=
  let run := (TextRun.step asciiFunctions numberedFormat).final
    (start RecentEntries ⟨⟨⟨1⟩⟩, 10⟩ defaultTokenizer) [.insert .asListed (repeated count [1])]
  run.documents = [([1], List.replicate count "a")] ∧ (∃ positions next,
      getPostings numberedFormat "a" run.index = .ok [⟨[1], positions, 0⟩] next ∧
        positions.length = count) ∧
    ¬run.Accurate numberedFormat

theorem countedAsZero {count : Nat} (large : count = 2 ^ 32) : CountedAsZero count := by
  unfold CountedAsZero
  intro run
  have documents : run.documents = [([1], List.replicate count "a")] :=
    documents_repeated numberedFormat ⟨⟨⟨1⟩⟩, 10⟩ count
  have occurrences : (List.replicate count "a").count "a" = count := count_replicate_self
  have consistent : run.Consistent numberedFormat :=
    consistent_final ⟨fun document mem => (by cases mem), trivial⟩
  refine ⟨documents, ?_, fun accurate => ?_⟩
  · have isToken : "a" ∈ List.replicate count "a" :=
      mem_replicate.mpr ⟨large ▸ (Nat.two_pow_pos 32).ne', rfl⟩
    have zero : UInt32.ofNat count = 0 := by
      rw [large]
      rfl
    obtain ⟨content, stored, mirrors⟩ := consistent
    rw [documents] at mirrors
    obtain ⟨next, read, _⟩ := takes_getPostings content "a" run.index stored
    rw [view_alone [1] mirrors isToken, postingOf, occurrences, zero] at read
    exact ⟨_, next, read, (length_positionsOf _ _).trans occurrences⟩
  · have fits := consistent.accurate_iff_fits.mp accurate ([1], List.replicate count "a")
      (documents ▸ mem_singleton_self _) "a"
    rw [occurrences, large] at fits
    exact absurd fits (lt_irrefl _)

/-- The number of occurrences does not fit. -/
theorem frequency_wraps : ∃ count, count = 2 ^ 32 ∧ CountedAsZero count :=
  ⟨2 ^ 32, rfl, countedAsZero rfl⟩

end TextRun

end Nanograph.Idx
