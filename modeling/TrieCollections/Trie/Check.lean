/-
  TrieCollections/Trie/Check.lean
  ===============================
  **A check of a trie's shape.**  It can be run on any trie and looks at what a
  reader of the trie relies on without looking at keys of different entries: stored
  hashes are the hashes of the keys, bitmaps fit their contents, no branch is empty
  or holds a lone leaf, lists of collisions stand at full depth and have at least two
  entries, and the size is the number of entries.
-/
import TrieCollections.Trie.Basic

namespace TrieCollections

variable {ε κ : Type} [Hashed κ] [Keyed ε κ]

/-- A leaf by itself. -/
def Node.isLeaf : Node ε → Bool
  | .leaf _ _ => true
  | _ => false

/-- The shape of a node `depth` levels down is right. -/
def Node.isSane (depth : Nat) : Node ε → Bool
  | .leaf e h => h == hashValue (Keyed.key e)
  | .collision es => decide (maxDepth ≤ depth) && decide (2 ≤ es.length)
  | .branch ⟨bitmap, kids⟩ =>
    decide (Sparse.ones bitmap = kids.length) && !kids.isEmpty
      && !(kids.length == 1 && kids.all isLeaf)
      && (kids.map fun kid => kid.isSane (depth + 1)).all id
termination_by node => sizeOf node

/-- The shape of a trie is right. -/
def Trie.isSane (t : Trie ε) : Bool :=
  t.root.all (Node.isSane 0) && t.size == t.entries.length

end TrieCollections
