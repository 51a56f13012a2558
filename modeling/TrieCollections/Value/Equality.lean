/-
  TrieCollections/Value/Equality.lean
  ===================================
  **Equality of values.**  Values of different kinds are different.  Scalars are equal
  as such, arrays element by element, and collections as sets, maps and relations are:
  by sizes and combined hashes first, then by finding each entry of the one in the
  other.

  The comparison goes down into the first value: each entry that is looked for is part
  of it.  `beq_set`, `beq_map` and `beq_relation` say that what results is the `==` of
  the collections themselves.
-/
import TrieCollections.Value.Basic

namespace TrieCollections

namespace Value

mutual

def beq : Value → Value → Bool
  | bool a, bool b => a == b
  | int a, int b => a == b
  | float a, float b => a == b
  | complex a b, complex c d => a == c && b == d
  | str a, str b => a == b
  | array xs, array ys => beqElements xs ys
  | set s, set t =>
    s.size == t.size && s.hash == t.hash && s.trie.entries.attach.all fun p =>
      (t.trie.lookup (hashSeeded · p.1.1.value) p.1.2 fun u => beq p.1.1.value u.value).isSome
  | map m, map n =>
    m.size == n.size && m.hash == n.hash && m.trie.entries.attach.all fun p =>
      (n.trie.lookup (hashSeeded · p.1.1.1) p.1.2 fun e => beq p.1.1.1 e.1).any fun found =>
        beq p.1.1.2 found.2
  | relation r, relation q =>
    r.size == q.size && r.hash == q.hash && r.trie.entries.attach.all fun p =>
      (q.trie.lookup (hashSeeded · p.1.1.value) p.1.2 fun u =>
        beqTuples p.1.1.value u.value).isSome
  | _, _ => false
termination_by x => sizeOf x
decreasing_by
  · simp only [array.sizeOf_spec]; omega
  all_goals
    have h := Trie.sizeOf_entry_lt p.2
    rcases p with ⟨⟨⟨⟩, _⟩, _⟩
    first
    | cases s
    | cases r
    | cases m
    simp only [set.sizeOf_spec, map.sizeOf_spec, relation.sizeOf_spec, TrieSet.mk.sizeOf_spec,
      TrieMap.mk.sizeOf_spec, Member.mk.sizeOf_spec, Prod.mk.sizeOf_spec] at *
    omega

/-- Two tuples have equal values under the same attributes. -/
def beqTuples (a b : TrieMap String Value) : Bool :=
  a.size == b.size && a.hash == b.hash && a.trie.entries.attach.all fun p =>
    (b.trie.lookup (hashSeeded · p.1.1.1) p.1.2 fun e => p.1.1.1 == e.1).any fun found =>
      beq p.1.1.2 found.2
termination_by sizeOf a
decreasing_by
  have h := Trie.sizeOf_entry_lt p.2
  rcases p with ⟨⟨⟨⟩, _⟩, _⟩
  cases a
  simp only [TrieMap.mk.sizeOf_spec, Prod.mk.sizeOf_spec] at *
  omega

def beqElements : List Value → List Value → Bool
  | [], [] => true
  | x :: xs, y :: ys => beq x y && beqElements xs ys
  | _, _ => false
termination_by xs => sizeOf xs

end

instance : BEq Value := ⟨beq⟩

theorem all_attach {α : Type} (xs : List α) (f : α → Bool) :
    (xs.attach.all fun x => f x.1) = xs.all f := by
  conv => rhs; rw [← List.attach_map_subtype_val xs, List.all_map]
  rfl

theorem beq_eq (x y : Value) : (x == y) = beq x y := rfl

theorem beqTuples_eq (a b : TrieMap String Value) : beqTuples a b = (a == b) := by
  rw [beqTuples]
  exact congrArg _ (all_attach a.trie.entries fun p =>
    (b.trie.getHashed? p.2 p.1.1).any fun found => p.1.2 == found.2)

theorem beq_array (xs ys : List Value) : (array xs == array ys) = (xs == ys) := by
  rw [beq_eq, beq]
  induction xs generalizing ys with
  | nil => cases ys <;> simp [beqElements]
  | cons x xs ih =>
    cases ys with
    | nil => simp [beqElements]
    | cons y ys => rw [beqElements, ih]; rfl

theorem beq_set (s t : TrieSet Value) : (set s == set t) = (s == t) := by
  rw [beq_eq, beq]
  exact congrArg _ (all_attach s.trie.entries fun p =>
    (t.trie.getHashed? p.2 p.1.value).isSome)

theorem beq_map (m n : TrieMap Value Value) : (map m == map n) = (m == n) := by
  rw [beq_eq, beq]
  exact congrArg _ (all_attach m.trie.entries fun p =>
    (n.trie.getHashed? p.2 p.1.1).any fun found => p.1.2 == found.2)

theorem beq_relation (r q : Relation String Value) : (relation r == relation q) = (r == q) := by
  rw [beq_eq, beq]
  simp only [beqTuples_eq]
  exact congrArg _ (all_attach r.trie.entries fun p =>
    (q.trie.getHashed? p.2 p.1.value).isSome)

end Value

end TrieCollections
