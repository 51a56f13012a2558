/-
  TrieCollections/Relation/Basic.lean
  ===================================
  **Relations.**  A relation is a set of tuples, and a tuple is a map from attributes
  to values.  The tuples of a relation are meant to have the same attributes, its
  header; the header is not stored and nothing checks it.

  Here a relation is built from rows, and every tuple restricted to some attributes.
-/
import TrieCollections.Failure
import TrieCollections.TrieMap.Basic

namespace TrieCollections

/-- A tuple: values under attributes. -/
abbrev Tuple (κ ν : Type) := TrieMap κ ν

abbrev Relation (κ ν : Type) := TrieSet (Tuple κ ν)

namespace Relation

variable {κ ν : Type} [Hashed κ] [BEq κ] [Hashed ν] [BEq ν]

/-- The tuple that pairs a header with a row, position by position; under a repeated
    attribute the last value counts. -/
def tupleOfRow (header : List κ) (row : List ν) : Tuple κ ν := .ofList (header.zip row)

/-- Add the tuples of rows to a relation.  `index` is the number of the first row. -/
def addRows (header : List κ) : (index : Nat) → List (List ν) → Relation κ ν →
    Except Failure (Relation κ ν)
  | _, [], rel => .ok rel
  | index, row :: rows, rel =>
    if row.length = header.length then
      addRows header (index + 1) rows (rel.insert (tupleOfRow header row))
    else .error (.shapeMismatch index header.length row.length)

/-- The relation of rows whose values are in header order; the first row of another
    length is an error. -/
def ofRows (header : List κ) (rows : List (List ν)) : Except Failure (Relation κ ν) :=
  addRows header 0 rows .empty

def project (rel : Relation κ ν) (attrs : TrieSet κ) : Relation κ ν :=
  rel.map fun tuple => TrieMap.project tuple attrs

end Relation

end TrieCollections
