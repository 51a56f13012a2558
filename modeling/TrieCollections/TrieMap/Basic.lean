/-
  TrieCollections/TrieMap/Basic.lean
  ==================================
  **Persistent maps.**  A map is a trie whose entries are pairs of a key and a value.
  A pair contributes the hash of its value under the hash of its key as the seed, so
  the same value weighs differently under different keys.

  Inserting under a key that the map already has replaces the whole pair, key
  included: equal keys need not be the same.

  Only keys are compared when a map is searched; values have to be hashed, and they
  are compared when two maps are.
-/
import TrieCollections.Failure
import TrieCollections.TrieSet.Basic

namespace TrieCollections

instance (κ ν : Type) [Hashed ν] : Keyed (κ × ν) κ where
  key := Prod.fst
  contribution hash entry := hashSeeded hash entry.2

structure TrieMap (κ ν : Type) where
  trie : Trie (κ × ν)

namespace TrieMap

variable {κ ν : Type}

def empty : TrieMap κ ν := ⟨.empty⟩

instance : EmptyCollection (TrieMap κ ν) := ⟨empty⟩

instance : Inhabited (TrieMap κ ν) := ⟨empty⟩

def size (m : TrieMap κ ν) : Nat := m.trie.size

def isEmpty (m : TrieMap κ ν) : Bool := m.size == 0

/-- The combined hash: the xor of the entries' contributions. -/
def hash (m : TrieMap κ ν) : UInt64 := m.trie.hash

/-- The entries, in the order of the trie. -/
def toList (m : TrieMap κ ν) : List (κ × ν) := m.trie.entries.map (·.1)

def keys (m : TrieMap κ ν) : List κ := m.toList.map (·.1)

def values (m : TrieMap κ ν) : List ν := m.toList.map (·.2)

def walk (m : TrieMap κ ν) : Walk (κ × ν) := .start m.trie

def drain (m : TrieMap κ ν) : Drain (κ × ν) := .start m.trie

def fold {β : Type} (f : β → κ → ν → β) (init : β) (m : TrieMap κ ν) : β :=
  m.toList.foldl (fun acc e => f acc e.1 e.2) init

/-- A map is hashed by its size and its combined hash. -/
instance : Hashed (TrieMap κ ν) where
  words m := [lengthWord m.size, m.hash]

variable [Hashed κ] [BEq κ] [Hashed ν]

/-! ### Entries -/

def getEntry? (m : TrieMap κ ν) (k : κ) : Option (κ × ν) := m.trie.get? k

def get? (m : TrieMap κ ν) (k : κ) : Option ν := (m.getEntry? k).map (·.2)

def contains (m : TrieMap κ ν) (k : κ) : Bool := (m.get? k).isSome

def getD (m : TrieMap κ ν) (k : κ) (default : ν) : ν := (m.get? k).getD default

/-- The value under a key that has to be there; `text` writes the key for the error. -/
def mustGet (text : κ → String) (m : TrieMap κ ν) (k : κ) : Except Failure ν :=
  match m.get? k with
  | some v => .ok v
  | none => .error (.keyNotFound (text k))

/-- The value under a key that is used as an index. -/
def index (m : TrieMap κ ν) (k : κ) : Except Failure ν :=
  match m.get? k with
  | some v => .ok v
  | none => .error .invalidIndex

/-! ### Edits -/

/-- The map with `v` under `k`, and the value that was there before. -/
def exchange (m : TrieMap κ ν) (k : κ) (v : ν) : TrieMap κ ν × Option ν :=
  let (trie, old) := m.trie.insert (k, v)
  (⟨trie⟩, old.map (·.2))

/-- The map without the entry under `k`, and that entry. -/
def extract (m : TrieMap κ ν) (k : κ) : TrieMap κ ν × Option (κ × ν) :=
  let (trie, old) := m.trie.remove k
  (⟨trie⟩, old)

def insert (m : TrieMap κ ν) (k : κ) (v : ν) : TrieMap κ ν := (m.exchange k v).1

def erase (m : TrieMap κ ν) (k : κ) : TrieMap κ ν := (m.extract k).1

/-- The map with all entries of a list, the first one first. -/
def insertMany (m : TrieMap κ ν) (es : List (κ × ν)) : TrieMap κ ν :=
  es.foldl (fun m e => m.insert e.1 e.2) m

/-- The map without the entries under a list of keys, the first one first. -/
def eraseMany (m : TrieMap κ ν) (ks : List κ) : TrieMap κ ν := ks.foldl erase m

def unit (k : κ) (v : ν) : TrieMap κ ν := empty.insert k v

/-- The map of a list of entries; of those with equal keys the last one counts. -/
def ofList (es : List (κ × ν)) : TrieMap κ ν := empty.insertMany es

def filter (p : κ → ν → Bool) (m : TrieMap κ ν) : TrieMap κ ν :=
  ⟨m.trie.filter fun e => p e.1 e.2⟩

/-! ### Comparing -/

/-- Every entry of `m` is found in `n`, under the hash that `m` has stored for its
    key and with an equal value. -/
def within [BEq ν] (m n : TrieMap κ ν) : Bool :=
  m.trie.entries.all fun p =>
    (n.trie.getHashed? p.2 p.1.1).any fun found => p.1.2 == found.2

/-- `m` and `n` have the same keys with the same values.  Sizes and combined hashes
    come first; where the two maps are known to share a root, that settles the rest. -/
def sameEntries [BEq ν] (sharedRoot : Bool) (m n : TrieMap κ ν) : Bool :=
  m.size == n.size && m.hash == n.hash && (sharedRoot || m.within n)

/-- Two maps are equal when they have equal values under the same keys. -/
instance [BEq ν] : BEq (TrieMap κ ν) where
  beq := sameEntries false

/-! ### Algebra -/

/-- All entries of both maps; under a shared key the right one. -/
def union (m n : TrieMap κ ν) : TrieMap κ ν := ⟨MergeRule.union.merge m.trie n.trie⟩

/-- The entries of `m`, overwritten and extended by those of `n`. -/
def update (m n : TrieMap κ ν) : TrieMap κ ν := m.union n

/-- The entries of `n` whose keys `m` has too. -/
def intersection (m n : TrieMap κ ν) : TrieMap κ ν :=
  ⟨MergeRule.intersection.merge m.trie n.trie⟩

def difference (m n : TrieMap κ ν) : TrieMap κ ν := ⟨MergeRule.difference.merge m.trie n.trie⟩

/-- The entries whose keys one of the maps has and the other has not. -/
def symmetricDifference (m n : TrieMap κ ν) : TrieMap κ ν :=
  ⟨MergeRule.symmetricDifference.merge m.trie n.trie⟩

def unions (ms : List (TrieMap κ ν)) : TrieMap κ ν := ms.foldl union empty

instance : Add (TrieMap κ ν) := ⟨union⟩

/-! ### Parts and images -/

def mapValues {ω : Type} [Hashed ω] (f : κ → ν → ω) (m : TrieMap κ ν) : TrieMap κ ω :=
  m.fold (fun out k v => out.insert k (f k v)) empty

def keySet (m : TrieMap κ ν) : TrieSet κ := m.fold (fun out k _ => out.insert k) .empty

/-- The entries whose keys are in a set.  A set smaller than the map is looked up in
    the map key by key; with a larger one the map is filtered. -/
def project (m : TrieMap κ ν) (ks : TrieSet κ) : TrieMap κ ν :=
  if ks.size < m.size then
    ks.fold (fun out k =>
      match m.getEntry? k with
      | none => out
      | some e => out.insert e.1 e.2) empty
  else m.filter fun k _ => ks.contains k

end TrieMap

/-- The partition of a set by the images of its members: under each image the set of
    the members that have it. -/
def TrieSet.groupBy {α κ : Type} [Hashed α] [BEq α] [Hashed κ] [BEq κ] (f : α → κ)
    (s : TrieSet α) : TrieMap κ (TrieSet α) :=
  s.fold (fun groups x => groups.insert (f x) ((groups.getD (f x) .empty).insert x)) .empty

end TrieCollections
