/-
  TrieCollections/Trie/Basic.lean
  ===============================
  **A trie with its counters.**  Besides the root node a trie keeps the number of its
  entries and a combined hash, the xor of what the entries contribute.  Both are kept
  up to date by each edit: an insertion adds its contribution, takes out the one of
  the entry it replaces, and counts only if there was none; a removal takes out the
  contribution of the entry it removes.

  A trie is a value: an edit gives a new trie.  What cannot be seen in the value is
  whether two tries still have one root in common.  For that a trie may carry a
  *stamp*, a number given to it once; copies keep it and every edit that changes the
  trie drops it (`TrieCollections.Trie.Sharing`).
-/
import TrieCollections.Trie.Node

namespace TrieCollections

/-- A trie of entries: its root, absent when there is no entry, the number of
    entries, their combined hash, and the stamp of the root if it has one. -/
structure Trie (ε : Type) where
  root : Option (Node ε)
  size : Nat
  hash : UInt64
  stamp : Option Nat

namespace Trie

variable {ε κ : Type}

def empty : Trie ε := ⟨none, 0, 0, none⟩

instance : EmptyCollection (Trie ε) := ⟨empty⟩

instance : Inhabited (Trie ε) := ⟨empty⟩

/-- All entries with the hashes of their keys. -/
def entries (t : Trie ε) : List (ε × UInt64) :=
  match t.root with
  | none => []
  | some node => node.entries

/-- An entry is smaller than the trie that holds it. -/
theorem sizeOf_entry_lt [SizeOf ε] {t : Trie ε} {p : ε × UInt64} (h : p ∈ t.entries) :
    sizeOf p.1 < sizeOf t := by
  obtain ⟨root, size, hash, stamp⟩ := t
  rcases root with _ | node
  · exact absurd h (by simp [entries])
  · have := Node.sizeOf_entry_lt (show p ∈ node.entries from h)
    simp only [Trie.mk.sizeOf_spec, Option.some.sizeOf_spec]
    omega

/-! ### Looking up -/

/-- The entry with the sought key, by what the search needs of the key. -/
def lookup (t : Trie ε) (rehash : UInt64 → UInt64) (hash : UInt64) (isKey : ε → Bool) :
    Option ε :=
  t.root.bind fun node => node.find? rehash hash isKey (IndexStream.ofHash hash)

section Keys

variable [Hashed κ] [BEq κ] [Keyed ε κ]

/-- The entry with a key whose hash is known. -/
def getHashed? (t : Trie ε) (hash : UInt64) (k : κ) : Option ε :=
  t.lookup (hashSeeded · k) hash fun e => k == Keyed.key e

def get? (t : Trie ε) (k : κ) : Option ε := t.getHashed? (hashValue k) k

/-! ### Inserting -/

/-- Put in an entry whose key has the given hash; the entry it replaces is handed
    back. -/
def insertHashed (t : Trie ε) (hash : UInt64) (e : ε) : Trie ε × Option ε :=
  let (node, replaced) := match t.root with
    | none => (Node.leaf e hash, none)
    | some node => node.insert e hash 0 (IndexStream.ofHash hash)
  let added := Keyed.contribution hash e
  match replaced with
  | none => (⟨some node, t.size + 1, t.hash ^^^ added, none⟩, none)
  | some old =>
    (⟨some node, t.size, t.hash ^^^ Keyed.contribution hash old ^^^ added, none⟩, some old)

/-- Put in an entry; the entry it replaces is handed back. -/
def insert (t : Trie ε) (e : ε) : Trie ε × Option ε := t.insertHashed (hashValue (Keyed.key e)) e

/-! ### Removing -/

/-- Take out the entry with a key whose hash is known; the entry is handed back.
    Without such an entry the trie stays as it is, stamp included. -/
def removeHashed (t : Trie ε) (hash : UInt64) (k : κ) : Trie ε × Option ε :=
  let found := t.root.bind fun node =>
    node.remove (hashSeeded · k) hash (fun e => k == Keyed.key e) (IndexStream.ofHash hash)
  match found with
  | none => (t, none)
  | some (e, rest) => (⟨rest, t.size - 1, t.hash ^^^ Keyed.contribution hash e, none⟩, some e)

/-- Take out the entry with the given key; the entry is handed back. -/
def remove (t : Trie ε) (k : κ) : Trie ε × Option ε := t.removeHashed (hashValue k) k

/-- The trie of the entries that satisfy a predicate: the others are removed from a
    copy, in the order in which the trie lists them. -/
def filter (t : Trie ε) (p : ε → Bool) : Trie ε :=
  t.entries.foldl (fun out x => if p x.1 then out else (out.remove (Keyed.key x.1)).1) t

end Keys

end Trie

end TrieCollections
