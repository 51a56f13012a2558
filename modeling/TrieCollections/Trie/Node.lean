/-
  TrieCollections/Trie/Node.lean
  ==============================
  **The nodes of a hash trie.**  A node is never empty.  It is a leaf with one
  entry and the hash of the entry's key, a branch that sends every key to the slot
  its index stream draws at this depth, or, at the full depth only, a list of
  entries whose keys' streams agree as far as the trie looks.

  Three operations follow the stream of one key down to where its entry is or
  would be: `find?`, `insert`, `remove`.  Insertion *separates* two entries that
  meet in one leaf by branches, one per level on which their slots agree.  Removal
  undoes this: a branch that is left with a single leaf is replaced by that leaf,
  all the way up.

  The functions do not ask for a key but for what they need of it: its hash, its
  hash under other seeds (`rehash`), and a test for "this entry has my key"
  (`isKey`).
-/
import TrieCollections.Trie.Sparse

namespace TrieCollections

/-- Entries that hold a key, and that contribute a word to the combined hash of
    the collection they are in. -/
class Keyed (ε : Type) (κ : outParam Type) where
  key : ε → κ
  /-- The contribution of an entry, from the hash of its key. -/
  contribution : UInt64 → ε → UInt64

/-- A non-empty trie of entries, each with the hash of its key. -/
inductive Node (ε : Type) where
  | leaf (entry : ε) (hash : UInt64)
  | collision (entries : List (ε × UInt64))
  | branch (kids : Sparse (Node ε))

namespace Node

variable {ε κ : Type}

/-- All entries below a node with the hashes of their keys. -/
def entries : Node ε → List (ε × UInt64)
  | leaf e h => [(e, h)]
  | collision es => es
  | branch ⟨_, kids⟩ => kids.flatMap fun kid => kid.entries

/-! ### Looking up -/

/-- The entry with the sought key, where `stream` draws the slots from this node
    downwards. -/
def find? (rehash : UInt64 → UInt64) (hash : UInt64) (isKey : ε → Bool) :
    Node ε → IndexStream → Option ε
  | leaf e h, _ => if h == hash && isKey e then some e else none
  | collision es, _ => (es.find? fun p => isKey p.1).map (·.1)
  | branch kids, stream =>
    match _found : kids.get? (stream.next rehash).1 with
    | none => none
    | some kid => find? rehash hash isKey kid (stream.next rehash).2
termination_by node => sizeOf node
decreasing_by
  have := Sparse.sizeOf_lt_of_get? _found
  simp only [branch.sizeOf_spec]
  omega

/-! ### Inserting -/

/-- Put an entry into a list of entries: in the place of the one with its key, and
    then that one is handed back, or at the end. -/
def insertChain [BEq κ] [Keyed ε κ] (entry : ε) (hash : UInt64) :
    List (ε × UInt64) → List (ε × UInt64) × Option ε
  | [] => ([(entry, hash)], none)
  | (old, oldHash) :: rest =>
    if Keyed.key entry == Keyed.key old then ((entry, oldHash) :: rest, some old)
    else
      let (rest, replaced) := insertChain entry hash rest
      ((old, oldHash) :: rest, replaced)

/-- The node for two entries with different keys: branches as long as both take the
    same slot, for at most `levels` levels, then a list. -/
def separate [Hashed κ] [Keyed ε κ] :
    (levels : Nat) → ε × UInt64 → IndexStream → ε × UInt64 → IndexStream → Node ε
  | 0, old, _, new, _ => collision [old, new]
  | levels + 1, old, oldStream, new, newStream =>
    let (i, oldRest) := oldStream.next (hashSeeded · (Keyed.key old.1))
    let (j, newRest) := newStream.next (hashSeeded · (Keyed.key new.1))
    if i = j then branch (.unit i (separate levels old oldRest new newRest))
    else branch ((Sparse.unit i (leaf old.1 old.2)).populate j (leaf new.1 new.2))

/-- Put an entry into the trie at its key's place, `depth` levels down, and hand
    back the entry it took the place of. -/
def insert [Hashed κ] [BEq κ] [Keyed ε κ] (entry : ε) (hash : UInt64) :
    Node ε → (depth : Nat) → IndexStream → Node ε × Option ε
  | leaf old oldHash, depth, stream =>
    if oldHash == hash && Keyed.key entry == Keyed.key old then (leaf entry oldHash, some old)
    else
      let oldStream := IndexStream.atDepth (hashSeeded · (Keyed.key old)) oldHash depth
      (separate (maxDepth - depth) (old, oldHash) oldStream (entry, hash) stream, none)
  | collision es, _, _ =>
    let (es, replaced) := insertChain entry hash es
    (collision es, replaced)
  | branch kids, depth, stream =>
    let drawn := stream.next (hashSeeded · (Keyed.key entry))
    match _found : kids.get? drawn.1 with
    | none => (branch (kids.populate drawn.1 (leaf entry hash)), none)
    | some kid =>
      let (kid, replaced) := insert entry hash kid (depth + 1) drawn.2
      (branch (kids.replace drawn.1 kid), replaced)
termination_by node => sizeOf node
decreasing_by
  have := Sparse.sizeOf_lt_of_get? _found
  simp only [branch.sizeOf_spec]
  omega

/-! ### Removing -/

/-- Take the first entry with the sought key out of a list of entries; the last one
    of the list moves to its place. -/
def removeChain (isKey : ε → Bool) : List (ε × UInt64) → List (ε × UInt64)
  | [] => []
  | p :: rest =>
    if isKey p.1 then rest.getLast?.toList ++ rest.dropLast else p :: removeChain isKey rest

/-- A list of entries as a node: nothing for no entry, a leaf for one. -/
def ofChain : List (ε × UInt64) → Option (Node ε)
  | [] => none
  | [(e, h)] => some (leaf e h)
  | es => some (collision es)

/-- Branches as a node: nothing without contents, and a single leaf stands for
    itself. -/
def ofKids (kids : Sparse (Node ε)) : Option (Node ε) :=
  match kids.children with
  | [] => none
  | [leaf e h] => some (leaf e h)
  | _ => some (branch kids)

/-- Take the entry with the sought key out of the trie: that entry and what
    remains, or nothing if there is no such entry. -/
def remove (rehash : UInt64 → UInt64) (hash : UInt64) (isKey : ε → Bool) :
    Node ε → IndexStream → Option (ε × Option (Node ε))
  | leaf e h, _ => if h == hash && isKey e then some (e, none) else none
  | collision es, _ =>
    (es.find? fun p => isKey p.1).map fun p => (p.1, ofChain (removeChain isKey es))
  | branch kids, stream =>
    match _found : kids.get? (stream.next rehash).1 with
    | none => none
    | some kid =>
      match remove rehash hash isKey kid (stream.next rehash).2 with
      | none => none
      | some (removed, none) => some (removed, ofKids (kids.erase (stream.next rehash).1))
      | some (removed, some kid) =>
        some (removed, ofKids (kids.replace (stream.next rehash).1 kid))
termination_by node => sizeOf node
decreasing_by
  have := Sparse.sizeOf_lt_of_get? _found
  simp only [branch.sizeOf_spec]
  omega

/-! ### The defining equations, without the proofs of termination -/

theorem entries_branch (kids : Sparse (Node ε)) :
    (branch kids).entries = kids.children.flatMap entries := by
  cases kids; rw [entries]

theorem find?_branch (rehash : UInt64 → UInt64) (hash : UInt64) (isKey : ε → Bool)
    (kids : Sparse (Node ε)) (stream : IndexStream) :
    (branch kids).find? rehash hash isKey stream =
      (kids.get? (stream.next rehash).1).bind fun kid =>
        kid.find? rehash hash isKey (stream.next rehash).2 := by
  rw [find?]
  split
  · next h => rw [h]; rfl
  · next h => rw [h]; rfl

theorem insert_branch [Hashed κ] [BEq κ] [Keyed ε κ] (entry : ε) (hash : UInt64)
    (kids : Sparse (Node ε)) (depth : Nat) (stream : IndexStream) :
    (branch kids).insert entry hash depth stream =
      match kids.get? (stream.next (hashSeeded · (Keyed.key entry))).1 with
      | none =>
        (branch (kids.populate (stream.next (hashSeeded · (Keyed.key entry))).1 (leaf entry hash)),
          none)
      | some kid =>
        let done := kid.insert entry hash (depth + 1)
          (stream.next (hashSeeded · (Keyed.key entry))).2
        (branch (kids.replace (stream.next (hashSeeded · (Keyed.key entry))).1 done.1),
          done.2) := by
  rw [insert]
  simp only
  split
  · next h => simp only [h]
  · next h => simp only [h]

theorem remove_branch (rehash : UInt64 → UInt64) (hash : UInt64) (isKey : ε → Bool)
    (kids : Sparse (Node ε)) (stream : IndexStream) :
    (branch kids).remove rehash hash isKey stream =
      (kids.get? (stream.next rehash).1).bind fun kid =>
        (kid.remove rehash hash isKey (stream.next rehash).2).map fun done =>
          (done.1, ofKids (match done.2 with
            | none => kids.erase (stream.next rehash).1
            | some kid => kids.replace (stream.next rehash).1 kid)) := by
  rw [remove]
  split
  · next h => rw [h]; rfl
  · next kid h =>
    rw [h, Option.bind_some]
    split
    · next h' => rw [h']; rfl
    · next h' => rw [h']; rfl
    · next h' => rw [h']; rfl

/-- An entry is smaller than a node that holds it. -/
theorem sizeOf_entry_lt [SizeOf ε] {node : Node ε} {p : ε × UInt64} (h : p ∈ node.entries) :
    sizeOf p.1 < sizeOf node := by
  fun_induction entries node with
  | case1 e hash =>
    rw [List.mem_singleton.mp h, leaf.sizeOf_spec]
    show sizeOf e < _
    omega
  | case2 es =>
    have := List.sizeOf_lt_of_mem h
    rw [collision.sizeOf_spec]
    rcases p with ⟨e, w⟩
    simp only [Prod.mk.sizeOf_spec] at *
    omega
  | case3 bitmap kids ih =>
    obtain ⟨kid, hkid, hp⟩ := List.mem_flatMap.mp h
    have h₁ := ih kid hkid hp
    have h₂ := List.sizeOf_lt_of_mem hkid
    simp only [branch.sizeOf_spec, Sparse.mk.sizeOf_spec]
    omega

end Node

end TrieCollections
