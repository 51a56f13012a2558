/-
  TrieCollections/Failure.lean
  ============================
  **What can go wrong, and the words for it.**  All operations are pure, so one that
  fails has left its operands as they were.
-/

namespace TrieCollections

inductive Failure where
  /-- A key had to be there; `key` is its text. -/
  | keyNotFound (key : String)
  /-- A map was indexed by a key that it has not. -/
  | invalidIndex
  /-- A row has not one value for each attribute of the header. -/
  | shapeMismatch (row expected found : Nat)
  /-- A value cannot be a key because it is not equal to itself. -/
  | unhashable (typeName reason : String)
deriving DecidableEq

def Failure.message : Failure → String
  | keyNotFound key => "key not found: " ++ key
  | invalidIndex => "Map::index: invalid key"
  | shapeMismatch row expected found =>
    "row " ++ toString row ++ " has " ++ toString found ++ " values but the header has "
      ++ toString expected ++ " attributes"
  | unhashable typeName reason => "cannot hash " ++ typeName ++ ": " ++ reason

end TrieCollections
