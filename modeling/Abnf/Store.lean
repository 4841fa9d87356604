/-
The indexes of the documents that are known.

A document has at most one entry, the index of its latest text.  An entry is replaced as a whole;
when no tree could be made for a text, the entry of the document is dropped.  Every operation comes
with the records that it logs.
-/
import Abnf.Index
import Abnf.Log
import Abnf.Table

namespace Abnf

/-- Indexes by document. -/
structure Store where
  entries : Table Index

namespace Store

def empty : Store := ⟨.empty⟩

def get? (store : Store) (document : String) : Option Index := store.entries.get? document

/-- The number of documents with an entry. -/
def size (store : Store) : Nat := store.entries.size

def isEmpty (store : Store) : Bool := store.entries.isEmpty

/-- What is logged when a document has been indexed. -/
def indexedRecord (index : Index) : LogRecord where
  level := .debug
  text := "Indexed document"
  fields :=
    [("document", index.document), ("definitions", toString index.definitions.length),
      ("referenced_names", toString index.references.size)]

/-- Gives a document the index of a tree, or no entry if there is no tree.  The index that is given
back is the entry of the document after that. -/
def upsert (store : Store) (document : String) :
    Option SyntaxTree → Store × Option Index × List LogRecord
  | some tree =>
    let index := Index.ofTree document tree
    let entries := store.entries.insert document index
    (⟨entries⟩, entries.get? document, [indexedRecord index])
  | none =>
    (⟨store.entries.erase document⟩, none,
      [{ level := .warn
         text := "Grammar engine produced no tree"
         fields := [("document", document)] }])

/-- Drops the entry of a document. -/
def invalidate (store : Store) (document : String) : Store × List LogRecord :=
  (⟨store.entries.erase document⟩,
    if store.entries.contains document then
      [{ level := .debug
         text := "Dropped document index"
         fields := [("document", document)] }]
    else [])

/-- Drops all entries. -/
def disposeAll (store : Store) : Store × List LogRecord :=
  (empty,
    [{ level := .debug
       text := "Dropping all document indexes"
       fields := [("count", toString store.size)] }])

end Store

end Abnf
