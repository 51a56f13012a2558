/-
  TrieCollections/Trie/Sharing.lean
  =================================
  **Tries with one root in common.**  Copying a trie is free: both copies stand on
  one root.  An edit that changes a trie gives it a root of its own.  Two tries thus
  share their root when neither was changed since one was copied from the other, and
  that says at once that they are equal, without a look at an entry.

  Sharing is a matter of history, so it is recorded: whoever keeps tries gives each
  unstamped one a fresh number when it is stored (`Stamps.mark`).  Copies carry the
  number along, a changed trie loses it, and equal numbers mean one root.  All empty
  tries share the absent root.
-/
import TrieCollections.Trie.Basic

namespace TrieCollections

namespace Trie

variable {ε : Type}

/-- Both tries stand on one root. -/
def sameRoot (s t : Trie ε) : Bool :=
  match s.root, t.root with
  | none, none => true
  | some _, some _ => s.stamp.isSome && s.stamp == t.stamp
  | _, _ => false

end Trie

/-- A supply of stamps: all numbers from `next` on are fresh. -/
structure Stamps where
  next : Nat

namespace Stamps

variable {ε : Type}

def initial : Stamps := ⟨0⟩

/-- Give a trie a fresh stamp, unless it has one or has no root to stamp. -/
def mark (stamps : Stamps) (t : Trie ε) : Trie ε × Stamps :=
  match t.root, t.stamp with
  | some _, none => ({ t with stamp := some stamps.next }, ⟨stamps.next + 1⟩)
  | _, _ => (t, stamps)

end Stamps

end TrieCollections
