/-
  TrieCollections/Builder.lean
  ============================
  **Builders.**  A builder collects a run of edits and is finished into a collection.
  It can start empty or from a collection, which stays as it is.  What it finishes
  with depends only on what is in it at the end, not on the edits that led there.
-/
import TrieCollections.TrieMap.Basic

namespace TrieCollections

structure SetBuilder (α : Type) where
  set : TrieSet α

namespace SetBuilder

variable {α : Type}

def empty : SetBuilder α := ⟨.empty⟩

def ofSet (s : TrieSet α) : SetBuilder α := ⟨s⟩

def size (b : SetBuilder α) : Nat := b.set.size

def isEmpty (b : SetBuilder α) : Bool := b.set.isEmpty

def finish (b : SetBuilder α) : TrieSet α := b.set

variable [Hashed α] [BEq α]

def add (b : SetBuilder α) (x : α) : SetBuilder α := ⟨b.set.insert x⟩

def remove (b : SetBuilder α) (x : α) : SetBuilder α := ⟨b.set.erase x⟩

def extend (b : SetBuilder α) (xs : List α) : SetBuilder α := ⟨b.set.insertMany xs⟩

def contains (b : SetBuilder α) (x : α) : Bool := b.set.contains x

end SetBuilder

structure MapBuilder (κ ν : Type) where
  map : TrieMap κ ν

namespace MapBuilder

variable {κ ν : Type}

def empty : MapBuilder κ ν := ⟨.empty⟩

def ofMap (m : TrieMap κ ν) : MapBuilder κ ν := ⟨m⟩

def size (b : MapBuilder κ ν) : Nat := b.map.size

def isEmpty (b : MapBuilder κ ν) : Bool := b.map.isEmpty

def finish (b : MapBuilder κ ν) : TrieMap κ ν := b.map

variable [Hashed κ] [BEq κ] [Hashed ν]

def put (b : MapBuilder κ ν) (k : κ) (v : ν) : MapBuilder κ ν := ⟨b.map.insert k v⟩

def remove (b : MapBuilder κ ν) (k : κ) : MapBuilder κ ν := ⟨b.map.erase k⟩

def extend (b : MapBuilder κ ν) (es : List (κ × ν)) : MapBuilder κ ν := ⟨b.map.insertMany es⟩

def get? (b : MapBuilder κ ν) (k : κ) : Option ν := b.map.get? k

end MapBuilder

end TrieCollections
