import Nanograph.Foundation.Grouping
import Nanograph.Foundation.Machine
import Nanograph.Idx.Persistence

/-!
# Full-text index

A document is cut into terms. For every term a list of postings is kept, one for each document
with the term; for every document its statistics and the list of its terms, by which it is
deleted. All of them are records of the storage of the index under keys of their own.

The functions of the standard library that know about Unicode are parameters. What is computed
in floating point, the average length of documents and the average frequency of terms, is left
out.
-/

namespace Nanograph.Idx

open Foundation Kvt PersistentIndexStore

/-- How text is cut into terms. -/
structure TokenizerConfig where
  lowercase : Bool
  stemming : Bool
  removeStopWords : Bool
  stopWords : List String

/-- Functions of the standard library on text. -/
structure TextFunctions where
  fromUtf8Lossy : Bytes → String
  toLowercase : String → String

/-- The characters with the property of being white space. -/
def isWhitespace (symbol : Char) : Bool :=
  let code := symbol.toNat
  (9 ≤ code && code ≤ 13) || code = 0x20 || code = 0x85 || code = 0xA0 || code = 0x1680 ||
    (0x2000 ≤ code && code ≤ 0x200A) || code = 0x2028 || code = 0x2029 || code = 0x202F ||
    code = 0x205F || code = 0x3000

/-- The punctuation characters of ASCII. -/
def isAsciiPunctuation (symbol : Char) : Bool :=
  let code := symbol.toNat
  (33 ≤ code && code ≤ 47) || (58 ≤ code && code ≤ 64) || (91 ≤ code && code ≤ 96) ||
    (123 ≤ code && code ≤ 126)

namespace TextFunctions

variable (functions : TextFunctions)

/-- Remove an ending from words that are longer than some number of bytes. -/
def withoutSuffix (word ending : String) (longerThan : Nat) : Option String :=
  if ending.toList.isSuffixOf word.toList && longerThan < word.utf8ByteSize then
    some (String.ofList (word.toList.take (word.toList.length - ending.toList.length)))
  else none

/-- Remove common endings of a word. -/
def stem (word : String) : String :=
  let word := functions.toLowercase word
  ((withoutSuffix word "ing" 5).orElse fun _ => (withoutSuffix word "ed" 4).orElse fun _ =>
    withoutSuffix word "s" 3).getD word

/-- Cut a text into terms. -/
def tokenize (config : TokenizerConfig) (text : String) : List String :=
  let tokens := ((text.toList.splitOnP fun symbol =>
    isWhitespace symbol || isAsciiPunctuation symbol).filter (· ≠ [])).map String.ofList
  let tokens := if config.lowercase then tokens.map functions.toLowercase else tokens
  let tokens :=
    if config.removeStopWords then tokens.filter fun token => token ∉ config.stopWords else tokens
  if config.stemming then tokens.map functions.stem else tokens

end TextFunctions

/-- The occurrences of a term in a document. -/
structure Posting where
  primaryKey : Bytes
  positions : List Nat
  frequency : UInt32

/-- Statistics of a document. -/
structure DocumentStats where
  termCount : Nat
  uniqueTerms : Nat

/-- How the records of a full-text index are written and read back. -/
structure TextFormat where
  postings : Format (List Posting)
  stats : Format DocumentStats
  terms : Format (List String)

variable {Cache : Type} [LruCache Cache]

variable (Cache) in
structure FullTextIndex where
  storage : PersistentIndexStore Cache
  tokenizerConfig : TokenizerConfig
  totalDocuments : Nat

/-- Positions and number of the occurrences of each term. -/
abbrev TermFrequencies := List (String × List Nat × UInt32)

def countTerm (term : String) (position : Nat) : TermFrequencies → TermFrequencies
  | [] => [(term, [position], 1)]
  | (other, positions, frequency) :: rest =>
    if other = term then (other, positions ++ [position], frequency + 1) :: rest
    else (other, positions, frequency) :: countTerm term position rest

/-- The terms among the tokens of a document. -/
def termFrequencies (tokens : List String) : TermFrequencies :=
  tokens.zipIdx.foldl (fun frequencies token => countTerm token.1 token.2 frequencies) []

namespace FullTextIndex

variable (Cache) in
/-- What an index does to its state, which may fail. -/
abbrev TextM := EStateM IndexError (FullTextIndex Cache)

/-- The key of the postings of a term. -/
def buildTermKey (term : String) : Bytes :=
  [116, 101, 114, 109, 58] ++ term.toByteArray.data.toList

/-- The key of the statistics of a document. -/
def buildDocStatsKey (primaryKey : Bytes) : Bytes := [100, 111, 99, 58] ++ primaryKey

/-- The key of the terms of a document. -/
def buildReverseKey (primaryKey : Bytes) : Bytes := [114, 101, 118, 58] ++ primaryKey

def readRecord (key : Bytes) : TextM Cache (Option Bytes) :=
  modifyGet fun index =>
    let read := index.storage.readEntry key []
    (read.1, { index with storage := read.2 })

def writeRecord (key value : Bytes) : TextM Cache PUnit :=
  modify fun index => { index with storage := index.storage.writeEntry key [] value }

def deleteRecord (key : Bytes) : TextM Cache PUnit :=
  modify fun index => { index with storage := index.storage.deleteEntry key [] }

variable (functions : TextFunctions) (format : TextFormat)

def getPostings (term : String) : TextM Cache (List Posting) := do
  match ← readRecord (buildTermKey term) with
  | some data => MonadExcept.ofExcept (format.postings.deserialize data)
  | none => pure []

def storePostings (term : String) (postings : List Posting) : TextM Cache PUnit :=
  writeRecord (buildTermKey term) (format.postings.serialize postings)

/-- Write the statistics of a document. -/
def storeDocStats (primaryKey : Bytes) (stats : DocumentStats) : TextM Cache PUnit :=
  writeRecord (buildDocStatsKey primaryKey) (format.stats.serialize stats)

/-- Replace the posting of a document for a term. -/
def addPosting (primaryKey : Bytes) (term : String × List Nat × UInt32) :
    TextM Cache PUnit := do
  let postings ← getPostings format term.1
  storePostings format term.1
    (postings.filter (·.primaryKey ≠ primaryKey) ++ [⟨primaryKey, term.2.1, term.2.2⟩])

/-- Insert a document; its terms are visited in some order. -/
def insert (order : VisitOrder (String × List Nat × UInt32)) (entry : IndexEntry) :
    TextM Cache PUnit := do
  let index ← get
  let text := functions.fromUtf8Lossy entry.indexedValue
  let tokens := functions.tokenize index.tokenizerConfig text
  let frequencies := termFrequencies tokens
  storeDocStats format entry.primaryKey ⟨tokens.length, frequencies.length⟩
  let termsList := (order.visit frequencies).map (·.1)
  forM (order.visit frequencies) (addPosting format entry.primaryKey)
  writeRecord (buildReverseKey entry.primaryKey) (format.terms.serialize termsList)
  modify fun index => { index with totalDocuments := index.totalDocuments + 1 }

/-- Remove the posting of a document for a term, and the list of the term with its last one. -/
def removePosting (primaryKey : Bytes) (term : String) : TextM Cache PUnit := do
  let postings ← getPostings format term
  let postings := postings.filter (·.primaryKey ≠ primaryKey)
  if postings = [] then deleteRecord (buildTermKey term)
  else storePostings format term postings

def delete (primaryKey : Bytes) : TextM Cache PUnit := do
  match ← readRecord (buildReverseKey primaryKey) with
  | none => pure ()
  | some data =>
    let terms ← MonadExcept.ofExcept (format.terms.deserialize data)
    forM terms (removePosting format primaryKey)
    deleteRecord (buildDocStatsKey primaryKey)
    deleteRecord (buildReverseKey primaryKey)
    modify fun index => { index with totalDocuments := index.totalDocuments - 1 }

/-- Replace a document. -/
def update (order : VisitOrder (String × List Nat × UInt32)) (oldEntry newEntry : IndexEntry) :
    TextM Cache PUnit := do
  delete format oldEntry.primaryKey
  insert functions format order newEntry

end FullTextIndex

end Nanograph.Idx
