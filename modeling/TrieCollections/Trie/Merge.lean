/-
  TrieCollections/Trie/Merge.lean
  ===============================
  **One engine for the binary operations.**  What union, intersection and their like
  keep is said by a `MergeRule`: keys found only on the left, keys found only on the
  right, and for a key on both sides nothing, the left entry or the right entry.

  A merge walks the smaller trie and probes the larger one.  Where the left trie is
  the smaller one the operands change places and the rule is flipped with them.  The
  result starts from a copy of the larger trie if its own keys stay, and from nothing
  otherwise, so a walk that changes nothing keeps the root.

  How many entries the result has follows from the sizes of the operands and from
  the number of keys they share; the rule carries these weights as its `tally`.
-/
import TrieCollections.Trie.Basic

namespace TrieCollections

/-- What becomes of a key found on both sides. -/
inductive Shared where
  | drop
  | left
  | right
deriving DecidableEq

/-- The choice that means the same with the operands swapped. -/
def Shared.flip : Shared → Shared
  | drop => drop
  | left => right
  | right => left

/-- The weights by which a result's size depends on the sizes of the operands and on
    the number of keys they share. -/
structure Tally where
  left : Int
  right : Int
  shared : Int
deriving DecidableEq

def Tally.flip (t : Tally) : Tally := ⟨t.right, t.left, t.shared⟩

def Tally.count (t : Tally) (left right shared : Nat) : Int :=
  t.left * left + t.right * right + t.shared * shared

/-- What a binary operation keeps. -/
structure MergeRule where
  keepLeft : Bool
  keepRight : Bool
  shared : Shared
  tally : Tally
deriving DecidableEq

namespace MergeRule

/-- Everything from both sides, and the right entry for a shared key. -/
def union : MergeRule := ⟨true, true, .right, ⟨1, 1, -1⟩⟩

/-- Only the shared keys, with the right entry. -/
def intersection : MergeRule := ⟨false, false, .right, ⟨0, 0, 1⟩⟩

/-- The left side without the keys found on the right. -/
def difference : MergeRule := ⟨true, false, .drop, ⟨1, 0, -1⟩⟩

/-- The keys found on one side only. -/
def symmetricDifference : MergeRule := ⟨true, true, .drop, ⟨1, 1, -2⟩⟩

/-- The rule that gives the same result with the operands swapped. -/
def flip (rule : MergeRule) : MergeRule :=
  ⟨rule.keepRight, rule.keepLeft, rule.shared.flip, rule.tally.flip⟩

variable {ε κ : Type} [Hashed κ] [BEq κ] [Keyed ε κ]

/-- What one entry of the right trie does to the result under construction. -/
def step (rule : MergeRule) (left : Trie ε) (out : Trie ε) (entry : ε × UInt64) : Trie ε :=
  match left.getHashed? entry.2 (Keyed.key entry.1) with
  | some found =>
    match rule.shared with
    | .drop => if rule.keepLeft then (out.removeHashed entry.2 (Keyed.key entry.1)).1 else out
    | .left => if rule.keepLeft then out else (out.insertHashed entry.2 found).1
    | .right => (out.insertHashed entry.2 entry.1).1
  | none => if rule.keepRight then (out.insertHashed entry.2 entry.1).1 else out

/-- The merge by a walk over the right trie. -/
def walk (rule : MergeRule) (left right : Trie ε) : Trie ε :=
  right.entries.foldl (rule.step left) (if rule.keepLeft then left else .empty)

def merge (rule : MergeRule) (left right : Trie ε) : Trie ε :=
  if left.size < right.size then rule.flip.walk right left else rule.walk left right

/-- The number of keys that both tries have. -/
def sharedCount (left right : Trie ε) : Nat :=
  right.entries.countP fun e => (left.getHashed? e.2 (Keyed.key e.1)).isSome

end MergeRule

end TrieCollections
