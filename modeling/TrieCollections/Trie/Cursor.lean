/-
  TrieCollections/Trie/Cursor.lean
  ================================
  **Walking a trie one entry at a time.**  There are two ways to do so.

  A `Walk` leaves the trie alone.  It holds what is still to be visited as a stack of
  lists of nodes, the innermost one on top, and a list of entries in case it stands
  inside a list of collisions.  It goes through the nodes in slot order, so it lists
  the entries as `Trie.entries` does.

  A `Drain` uses the trie up.  It holds a stack of nodes and takes the last one
  first, so it lists the entries from the other end.

  Both count down from the size that the trie had.
-/
import TrieCollections.Trie.Basic

namespace TrieCollections

variable {ε : Type}

/-! ### A measure of what is left to do -/

def total (ns : List Nat) : Nat := ns.foldr (· + ·) 0

@[simp] theorem total_nil : total [] = 0 := rfl

@[simp] theorem total_cons (n : Nat) (ns : List Nat) : total (n :: ns) = n + total ns := rfl

@[simp] theorem total_append (ns ms : List Nat) : total (ns ++ ms) = total ns + total ms := by
  induction ns with
  | nil => simp
  | cons n ns ih => simp [ih, Nat.add_assoc]

@[simp] theorem total_reverse (ns : List Nat) : total ns.reverse = total ns := by
  induction ns with
  | nil => rfl
  | cons n ns ih => simp [ih, Nat.add_comm]

/-- The number of steps that visiting a node takes: one for the node, one for each
    entry of a list, and those of a branch's contents, with one for coming back. -/
def Node.effort : Node ε → Nat
  | .leaf _ _ => 1
  | .collision es => es.length + 2
  | .branch ⟨_, kids⟩ => total (kids.map fun kid => kid.effort) + 2

theorem Node.effort_branch (bitmap : BitVec 32) (kids : List (Node ε)) :
    (Node.branch ⟨bitmap, kids⟩).effort = total (kids.map Node.effort) + 2 := by
  rw [effort]

/-! ### Walking in slot order -/

/-- A walk through a trie: the number of entries still to come, the rest of the list
    of collisions it stands in, and the nodes still to be visited, innermost first. -/
structure Walk (ε : Type) where
  remaining : Nat
  chain : List (ε × UInt64)
  stack : List (List (Node ε))

namespace Walk

/-- The walk that starts in front of a trie's first entry. -/
def start (t : Trie ε) : Walk ε :=
  ⟨t.size, [], match t.root with | none => [] | some node => [[node]]⟩

/-- The number of steps that a walk still takes. -/
def effort (chain : List (ε × UInt64)) (stack : List (List (Node ε))) : Nat :=
  chain.length + total (stack.map fun nodes => total (nodes.map Node.effort) + 1)

/-- The next entry, and where the walk stands after it. -/
def advance (remaining : Nat) :
    List (ε × UInt64) → List (List (Node ε)) → Option ((ε × UInt64) × Walk ε)
  | e :: chain, stack => some (e, ⟨remaining - 1, chain, stack⟩)
  | [], [] => none
  | [], [] :: stack => advance remaining [] stack
  | [], (.leaf e h :: nodes) :: stack => some ((e, h), ⟨remaining - 1, [], nodes :: stack⟩)
  | [], (.collision es :: nodes) :: stack => advance remaining es (nodes :: stack)
  | [], (.branch ⟨_, kids⟩ :: nodes) :: stack => advance remaining [] (kids :: nodes :: stack)
termination_by chain stack => effort chain stack
decreasing_by
  all_goals simp [effort, Node.effort_branch, Node.effort] <;> omega

/-- The next entry of a walk, and the walk after it. -/
def next? (w : Walk ε) : Option ((ε × UInt64) × Walk ε) := advance w.remaining w.chain w.stack

/-- The walk after at most `n` entries, with the number of entries passed. -/
def skip : Nat → Walk ε → Nat × Walk ε
  | 0, w => (0, w)
  | n + 1, w =>
    match w.next? with
    | none => (0, w)
    | some (_, w) =>
      let (passed, w) := skip n w
      (passed + 1, w)

end Walk

/-! ### Using a trie up -/

/-- A drain of a trie: the number of entries still to come, the rest of the list of
    collisions it stands in, and the nodes still to be visited.  Both lists are taken
    from their end; they are kept here with that end first. -/
structure Drain (ε : Type) where
  remaining : Nat
  chain : List (ε × UInt64)
  stack : List (Node ε)

namespace Drain

def start (t : Trie ε) : Drain ε := ⟨t.size, [], t.root.toList⟩

def effort (chain : List (ε × UInt64)) (stack : List (Node ε)) : Nat :=
  chain.length + total (stack.map Node.effort)

/-- The next entry, and what is left after it. -/
def advance (remaining : Nat) :
    List (ε × UInt64) → List (Node ε) → Option ((ε × UInt64) × Drain ε)
  | e :: chain, stack => some (e, ⟨remaining - 1, chain, stack⟩)
  | [], [] => none
  | [], .leaf e h :: stack => some ((e, h), ⟨remaining - 1, [], stack⟩)
  | [], .collision es :: stack => advance remaining es.reverse stack
  | [], .branch ⟨_, kids⟩ :: stack => advance remaining [] (kids.reverse ++ stack)
termination_by chain stack => effort chain stack
decreasing_by
  all_goals simp [effort, Node.effort_branch, Node.effort]

def next? (d : Drain ε) : Option ((ε × UInt64) × Drain ε) := advance d.remaining d.chain d.stack

end Drain

end TrieCollections
