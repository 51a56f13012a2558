/-
  TrieCollections/TrieSet/Basic.lean
  ==================================
  **Persistent sets.**  A set is a trie whose entries are its members.  What a member
  contributes to the combined hash is the hash of the member itself, so the combined
  hash is the xor of the hashes of all members, whatever order they came in.

  Inserting a member that the set already has puts the new one in its place.  The two
  are equal, but they need not be the same, so an insertion can hand back what it
  replaced (`exchange`) and a removal what it removed (`extract`).

  A set is itself a hashed type: its words are its size and its combined hash.
-/
import TrieCollections.Trie.Check
import TrieCollections.Trie.Cursor
import TrieCollections.Trie.Merge
import TrieCollections.Trie.Sharing

namespace TrieCollections

/-- An entry that is its own key. -/
structure Member (α : Type) where
  value : α

instance (α : Type) : Keyed (Member α) α where
  key := Member.value
  contribution hash _ := hash

structure TrieSet (α : Type) where
  trie : Trie (Member α)

namespace TrieSet

variable {α : Type}

def empty : TrieSet α := ⟨.empty⟩

instance : EmptyCollection (TrieSet α) := ⟨empty⟩

instance : Inhabited (TrieSet α) := ⟨empty⟩

def size (s : TrieSet α) : Nat := s.trie.size

def isEmpty (s : TrieSet α) : Bool := s.size == 0

/-- The combined hash: the xor of the members' hashes. -/
def hash (s : TrieSet α) : UInt64 := s.trie.hash

/-- The members, in the order of the trie. -/
def toList (s : TrieSet α) : List α := s.trie.entries.map (·.1.value)

def walk (s : TrieSet α) : Walk (Member α) := .start s.trie

def drain (s : TrieSet α) : Drain (Member α) := .start s.trie

/-- Some member, if there is one: the first of a walk. -/
def any? (s : TrieSet α) : Option α := s.walk.next?.map (·.1.1.value)

def fold {β : Type} (f : β → α → β) (init : β) (s : TrieSet α) : β := s.toList.foldl f init

/-- A set is hashed by its size and its combined hash. -/
instance : Hashed (TrieSet α) where
  words s := [lengthWord s.size, s.hash]

variable [Hashed α] [BEq α]

/-! ### Members -/

def get? (s : TrieSet α) (x : α) : Option α := (s.trie.get? x).map (·.value)

def contains (s : TrieSet α) (x : α) : Bool := (s.get? x).isSome

/-! ### Edits -/

/-- The set with `x`, and the member that `x` took the place of. -/
def exchange (s : TrieSet α) (x : α) : TrieSet α × Option α :=
  let (trie, old) := s.trie.insert ⟨x⟩
  (⟨trie⟩, old.map (·.value))

/-- The set without the member that equals `x`, and that member. -/
def extract (s : TrieSet α) (x : α) : TrieSet α × Option α :=
  let (trie, old) := s.trie.remove x
  (⟨trie⟩, old.map (·.value))

def insert (s : TrieSet α) (x : α) : TrieSet α := (s.exchange x).1

def erase (s : TrieSet α) (x : α) : TrieSet α := (s.extract x).1

/-- The set with all of a list, the first one first. -/
def insertMany (s : TrieSet α) (xs : List α) : TrieSet α := xs.foldl insert s

/-- The set without all of a list, the first one first. -/
def eraseMany (s : TrieSet α) (xs : List α) : TrieSet α := xs.foldl erase s

def unit (x : α) : TrieSet α := empty.insert x

/-- The set of the elements of a list; of equal ones the last one is the member. -/
def ofList (xs : List α) : TrieSet α := empty.insertMany xs

def filter (p : α → Bool) (s : TrieSet α) : TrieSet α := ⟨s.trie.filter fun m => p m.value⟩

/-! ### Comparing -/

/-- Every member of `s` is found in `t`, under the hash that `s` has stored for it. -/
def within (s t : TrieSet α) : Bool :=
  s.trie.entries.all fun p => (t.trie.getHashed? p.2 p.1.value).isSome

/-- `s` and `t` have the same members.  Sizes and combined hashes come first; where
    the two sets are known to share a root, that settles the rest. -/
def sameMembers (sharedRoot : Bool) (s t : TrieSet α) : Bool :=
  s.size == t.size && s.hash == t.hash && (sharedRoot || s.within t)

/-- Two sets are equal when they have the same members. -/
instance : BEq (TrieSet α) where
  beq := sameMembers false

def isSubset (s t : TrieSet α) : Bool := decide (s.size ≤ t.size) && s.within t

def isProperSubset (s t : TrieSet α) : Bool := s.size != t.size && s.isSubset t

/-! ### Algebra -/

/-- All members of both sets; a shared member is the right one. -/
def union (s t : TrieSet α) : TrieSet α := ⟨MergeRule.union.merge s.trie t.trie⟩

/-- The members of both sets at once, each the right one. -/
def intersection (s t : TrieSet α) : TrieSet α := ⟨MergeRule.intersection.merge s.trie t.trie⟩

/-- The members of `s` that `t` has not. -/
def difference (s t : TrieSet α) : TrieSet α := ⟨MergeRule.difference.merge s.trie t.trie⟩

/-- The members that one of the sets has and the other has not. -/
def symmetricDifference (s t : TrieSet α) : TrieSet α :=
  ⟨MergeRule.symmetricDifference.merge s.trie t.trie⟩

def unions (ss : List (TrieSet α)) : TrieSet α := ss.foldl union empty

instance : Add (TrieSet α) := ⟨union⟩

instance : Mul (TrieSet α) := ⟨intersection⟩

instance : Sub (TrieSet α) := ⟨difference⟩

/-- The union of the members of a set of sets. -/
def flatten (ss : TrieSet (TrieSet α)) : TrieSet α := unions ss.toList

/-! ### Images -/

def map {β : Type} [Hashed β] [BEq β] (f : α → β) (s : TrieSet α) : TrieSet β :=
  s.fold (fun out x => out.insert (f x)) empty

/-- The set of all subsets: for each member in turn, the subsets so far and each of
    them with that member. -/
def powerset (s : TrieSet α) : TrieSet (TrieSet α) :=
  s.fold (fun subsets x => subsets.insertMany (subsets.toList.map (·.insert x))) (unit empty)

end TrieSet

end TrieCollections
