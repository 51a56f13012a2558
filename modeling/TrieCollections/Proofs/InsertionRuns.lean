/-
  TrieCollections/Proofs/InsertionRuns.lean
  =========================================
  **Insertion as a run of calls.**  `Node.insert` separates two entries that meet in one leaf by
  counting levels, so that it is plain that it ends.  Insertion can also be told without a count:
  a leaf with another key is moved into a branch of its own, at the same depth, and the insertion
  is tried again there.  It may then come upon the very same leaf one level further down.  A run
  of this is an `InsertRun`, which says at which depths the insertion is entered, one call after
  the other, and what comes of it.

  Neither the node nor the depth alone gets smaller with each call.  What does is twice the number
  of levels that are left, and one more unless the call is for a branch (`callsLeft`): the second
  try is at the same depth but for a branch, and from a branch the next call goes one level down.
  So in a trie whose branches stand above the full depth a run is short, and no call of it goes
  below the full depth (`InsertRun.length_le`, `InsertRun.forall_le`).

  Every insertion has a run (`exists_insertRun`), it has only one (`InsertRun.unique`), and what
  comes of it is what `Node.insert` gives.
-/
import TrieCollections.ClusterKey
import TrieCollections.Proofs.NodePlaces
import TrieCollections.Proofs.SetContents

namespace TrieCollections

/-- Give a slot its content, whether it is populated or not. -/
def Sparse.put {β : Type} (s : Sparse β) (i : Slot) (x : β) : Sparse β :=
  if (s.get? i).isSome then s.replace i x else s.populate i x

namespace Node

variable {ε κ : Type} [BEq κ] [Hashed κ] [Keyed ε κ]

/-- The insertion of an entry at a node, or where there is none, so many levels down: the depths of
    its calls, the first one first, the node that comes of it and the entry that was replaced. -/
inductive InsertRun (entry : ε) (hash : UInt64) :
    Option (Node ε) → Nat → IndexStream → List Nat → Node ε × Option ε → Prop
  /-- Where nothing is, a leaf is put. -/
  | vacant {depth : Nat} {stream : IndexStream} :
      InsertRun entry hash none depth stream [depth] (leaf entry hash, none)
  /-- The entry with the same key is replaced. -/
  | same {old : ε} {oldHash : UInt64} {depth : Nat} {stream : IndexStream}
      (key : (oldHash == hash && Keyed.key entry == Keyed.key old) = true) :
      InsertRun entry hash (some (leaf old oldHash)) depth stream [depth]
        (leaf entry oldHash, some old)
  /-- At the full depth, entries with different keys are put in a list. -/
  | chain {old : ε} {oldHash : UInt64} {depth : Nat} {stream : IndexStream}
      (key : (oldHash == hash && Keyed.key entry == Keyed.key old) = false)
      (full : maxDepth ≤ depth) :
      InsertRun entry hash (some (leaf old oldHash)) depth stream [depth]
        (collision [(old, oldHash), (entry, hash)], none)
  /-- Above it, a leaf with another key moves into a branch, and insertion is tried again there. -/
  | split {old : ε} {oldHash : UInt64} {depth : Nat} {stream : IndexStream} {calls : List Nat}
      {done : Node ε × Option ε}
      (key : (oldHash == hash && Keyed.key entry == Keyed.key old) = false)
      (above : depth < maxDepth)
      (again : InsertRun entry hash
        (some (branch (.unit (slotAt (Keyed.key old) oldHash depth) (leaf old oldHash)))) depth
        stream calls done) :
      InsertRun entry hash (some (leaf old oldHash)) depth stream (depth :: calls) done
  /-- In a list, the entry is put into the place of the one with its key, or at the end. -/
  | list {es es' : List (ε × UInt64)} {replaced : Option ε} {depth : Nat} {stream : IndexStream}
      (placed : insertChain entry hash es = (es', replaced)) :
      InsertRun entry hash (some (collision es)) depth stream [depth] (collision es', replaced)
  /-- In a branch, insertion goes on in the slot that is drawn. -/
  | descend {kids : Sparse (Node ε)} {depth : Nat} {stream rest : IndexStream} {i : Slot}
      {calls : List Nat} {kid : Node ε} {replaced : Option ε}
      (drawn : stream.next (hashSeeded · (Keyed.key entry)) = (i, rest))
      (deeper : InsertRun entry hash (kids.get? i) (depth + 1) rest calls (kid, replaced)) :
      InsertRun entry hash (some (branch kids)) depth stream (depth :: calls)
        (branch (kids.put i kid), replaced)

variable {entry : ε} {hash : UInt64}

/-! ### There is one run -/

/-- **An insertion has one run only.** -/
theorem InsertRun.unique {node? : Option (Node ε)} {depth : Nat} {stream : IndexStream}
    {calls calls' : List Nat} {done done' : Node ε × Option ε}
    (h : InsertRun entry hash node? depth stream calls done)
    (h' : InsertRun entry hash node? depth stream calls' done') :
    calls = calls' ∧ done = done' := by
  induction h generalizing calls' done' with
  | vacant =>
    cases h'
    exact ⟨rfl, rfl⟩
  | same key =>
    cases h' with
    | same => exact ⟨rfl, rfl⟩
    | chain key' => simp [key] at key'
    | split key' => simp [key] at key'
  | chain key full =>
    cases h' with
    | same key' => simp [key] at key'
    | chain => exact ⟨rfl, rfl⟩
    | split _ above => omega
  | split key above again ih =>
    cases h' with
    | same key' => simp [key] at key'
    | chain _ full => omega
    | split _ _ again' =>
      obtain ⟨rfl, rfl⟩ := ih again'
      exact ⟨rfl, rfl⟩
  | list placed =>
    cases h' with
    | list placed' =>
      obtain ⟨rfl, rfl⟩ := Prod.ext_iff.mp (placed.symm.trans placed')
      exact ⟨rfl, rfl⟩
  | descend drawn deeper ih =>
    cases h' with
    | descend drawn' deeper' =>
      obtain ⟨rfl, rfl⟩ := Prod.ext_iff.mp (drawn.symm.trans drawn')
      obtain ⟨rfl, heq⟩ := ih deeper'
      obtain ⟨rfl, rfl⟩ := Prod.ext_iff.mp heq
      exact ⟨rfl, rfl⟩

/-! ### Every insertion has a run -/

section Units

variable {i j : Slot} {x kid : Node ε} {depth : Nat} {stream rest : IndexStream}

/-- Into a branch with one slot, when this slot is drawn. -/
theorem InsertRun.descend_unit {calls : List Nat} {replaced : Option ε}
    (drawn : stream.next (hashSeeded · (Keyed.key entry)) = (i, rest))
    (deeper : InsertRun entry hash (some x) (depth + 1) rest calls (kid, replaced)) :
    InsertRun entry hash (some (branch (.unit i x))) depth stream (depth :: calls)
      (branch (.unit i kid), replaced) := by
  have hget : (Sparse.unit i x).get? i = some x := by simp [Sparse.get?_unit]
  have hhas : (Sparse.unit i x).has i = true := by simp [Sparse.has_unit]
  have hposition : (Sparse.unit i x).position i = 0 := by
    simp [Sparse.position_eq, Sparse.unit, Sparse.onesBelow_bit]
  have hput : (Sparse.unit i x).put i kid = .unit i kid := by
    rw [Sparse.put, hget, Option.isSome_some, if_pos rfl, Sparse.replace, if_pos hhas, hposition]
    rfl
  rw [← hput]
  apply InsertRun.descend drawn
  rw [hget]
  exact deeper

/-- And when another one is drawn. -/
theorem InsertRun.descend_unit_of_ne
    (drawn : stream.next (hashSeeded · (Keyed.key entry)) = (j, rest)) (h : j ≠ i) :
    InsertRun entry hash (some (branch (.unit i x))) depth stream [depth, depth + 1]
      (branch ((Sparse.unit i x).populate j (leaf entry hash)), none) := by
  have hget : (Sparse.unit i x).get? j = none := by simp [Sparse.get?_unit, h]
  have hput : (Sparse.unit i x).put j (leaf entry hash) =
      (Sparse.unit i x).populate j (leaf entry hash) := by simp [Sparse.put, hget]
  rw [← hput]
  apply InsertRun.descend drawn
  rw [hget]
  exact .vacant

end Units

/-- **To split and try again, level by level, is to separate the two entries.**  By induction on
    the levels that are left: below a slot that both take, the leaf is met again. -/
theorem exists_insertRun_leaf {old : ε} {oldHash : UInt64}
    (key : (oldHash == hash && Keyed.key entry == Keyed.key old) = false) (levels : Nat)
    {depth : Nat} (hlevels : levels = maxDepth - depth) (stream : IndexStream) :
    ∃ calls, InsertRun entry hash (some (leaf old oldHash)) depth stream calls
      (separate levels (old, oldHash)
        (IndexStream.atDepth (hashSeeded · (Keyed.key old)) oldHash depth) (entry, hash) stream,
        none) := by
  induction levels generalizing depth stream with
  | zero => exact ⟨[depth], .chain key (by omega)⟩
  | succ levels ih =>
    have habove : depth < maxDepth := by omega
    rcases hdrawn : stream.next (hashSeeded · (Keyed.key entry)) with ⟨j, rest⟩
    have hold : (IndexStream.atDepth (hashSeeded · (Keyed.key old)) oldHash depth).next
        (hashSeeded · (Keyed.key old)) = (slotAt (Keyed.key old) oldHash depth,
          IndexStream.atDepth (hashSeeded · (Keyed.key old)) oldHash (depth + 1)) := rfl
    simp only [separate, hold, hdrawn]
    by_cases hsame : slotAt (Keyed.key old) oldHash depth = j
    · have hrest : levels = maxDepth - (depth + 1) := by omega
      obtain ⟨calls, hrun⟩ := ih hrest rest
      rw [if_pos hsame]
      rw [← hsame] at hdrawn
      exact ⟨_, .split key habove (.descend_unit hdrawn hrun)⟩
    · rw [if_neg hsame]
      exact ⟨_, .split key habove (.descend_unit_of_ne hdrawn fun h => hsame h.symm)⟩

/-- **Every insertion has a run**, and what comes of it is what `insert` gives. -/
theorem exists_insertRun (entry : ε) (hash : UInt64) (node : Node ε) (depth : Nat)
    (stream : IndexStream) : ∃ calls, InsertRun entry hash (some node) depth stream calls
      (node.insert entry hash depth stream) := by
  fun_induction insert entry hash node depth stream with
  | case1 old oldHash depth stream key => exact ⟨_, .same key⟩
  | case2 old oldHash depth stream key =>
    exact exists_insertRun_leaf (by simpa using key) _ rfl stream
  | case3 depth stream es es' replaced placed => exact ⟨_, .list placed⟩
  | case4 kids depth stream drawn hget =>
    have hput : kids.put drawn.1 (leaf entry hash) = kids.populate drawn.1 (leaf entry hash) := by
      simp [Sparse.put, hget]
    have hvacant : InsertRun entry hash (kids.get? drawn.1) (depth + 1) drawn.2 [depth + 1]
        (leaf entry hash, none) := hget ▸ .vacant
    rw [← hput]
    exact ⟨_, .descend rfl hvacant⟩
  | case5 kids depth stream drawn kid hget kid' replaced hkid ih =>
    obtain ⟨calls, hrun⟩ := ih
    have hput : kids.put drawn.1 kid' = kids.replace drawn.1 kid' := by simp [Sparse.put, hget]
    rw [← hget, hkid] at hrun
    rw [← hput]
    exact ⟨_, .descend rfl hrun⟩

/-! ### A run is short and stays above the full depth -/

/-- How many calls can be left: two for each level, the first of them for a leaf that is split. -/
def callsLeft : Option (Node ε) → Nat → Nat
  | some (branch _), depth => 2 * (maxDepth - depth)
  | _, depth => 2 * (maxDepth - depth) + 1

omit [BEq κ] [Hashed κ] [Keyed ε κ] in
theorem callsLeft_le (node? : Option (Node ε)) (depth : Nat) :
    callsLeft node? depth ≤ 2 * (maxDepth - depth) + 1 := by
  unfold callsLeft
  split <;> omega

/-- Below a node that stands at a depth, all branches stand above the full depth. -/
def Shallow (depth : Nat) (node : Node ε) : Prop :=
  ∀ levels kids, node.LiesAt levels (branch kids) → depth + levels < maxDepth

theorem WellFormed.shallow {ok : κ → Prop} {node : Node ε} {depth : Nat}
    (h : node.WellFormed ok depth) : node.Shallow depth := by
  intro levels kids hlies
  have hsub := h.of_liesAt hlies
  generalize depth + levels = d at hsub ⊢
  cases hsub with
  | branch deep => exact deep

section Shallow

omit [BEq κ] [Hashed κ] [Keyed ε κ]

variable {depth : Nat} {kids : Sparse (Node ε)}

theorem Shallow.lt (h : (branch kids).Shallow depth) : depth < maxDepth := by
  simpa using h 0 kids .here

theorem Shallow.kid (h : (branch kids).Shallow depth) {i : Slot} {kid : Node ε}
    (hkid : kids.get? i = some kid) : kid.Shallow (depth + 1) := by
  intro levels kids' hlies
  have hbelow := h (levels + 1) kids' (.inSlot hkid hlies)
  omega

/-- A leaf in a branch of its own. -/
theorem shallow_unit_leaf (hdepth : depth < maxDepth) (i : Slot) (e : ε) (hash : UInt64) :
    (branch (.unit i (leaf e hash))).Shallow depth := by
  intro levels kids hlies
  cases hlies with
  | here => exact hdepth
  | @inSlot _ j kid _ levels slot lies =>
    rw [Sparse.get?_unit] at slot
    split at slot
    · obtain rfl := Option.some.inj slot
      cases lies
    · cases slot

end Shallow

variable {node? : Option (Node ε)} {depth : Nat} {stream : IndexStream} {calls : List Nat}
  {done : Node ε × Option ε}

/-- **No call goes below the full depth.** -/
theorem InsertRun.forall_le (h : InsertRun entry hash node? depth stream calls done)
    (hdepth : depth ≤ maxDepth) (hshallow : ∀ node, node? = some node → node.Shallow depth) :
    ∀ d ∈ calls, d ≤ maxDepth := by
  induction h with
  | vacant => simpa using hdepth
  | same => simpa using hdepth
  | chain => simpa using hdepth
  | list => simpa using hdepth
  | split key above again ih =>
    refine List.forall_mem_cons.mpr ⟨hdepth, ih hdepth ?_⟩
    rintro _ ⟨rfl⟩
    exact shallow_unit_leaf above _ _ _
  | descend drawn deeper ih =>
    have hbranch := hshallow _ rfl
    exact List.forall_mem_cons.mpr ⟨hdepth, ih hbranch.lt fun kid hkid => hbranch.kid hkid⟩

/-- **Each call has fewer left than the one before**, so a run is no longer than what the first call
    has left. -/
theorem InsertRun.length_le (h : InsertRun entry hash node? depth stream calls done)
    (hshallow : ∀ node, node? = some node → node.Shallow depth) :
    calls.length ≤ callsLeft node? depth := by
  induction h with
  | vacant => simp [callsLeft]
  | same => simp [callsLeft]
  | chain => simp [callsLeft]
  | list => simp [callsLeft]
  | split key above again ih =>
    have hagain := ih (by rintro _ ⟨rfl⟩; exact shallow_unit_leaf above _ _ _)
    simp only [callsLeft, List.length_cons] at hagain ⊢
    omega
  | @descend kids depth stream rest i calls kid replaced drawn deeper ih =>
    have hbranch := hshallow _ rfl
    have habove := hbranch.lt
    have hdeeper := ih fun kid hkid => hbranch.kid hkid
    have hle := callsLeft_le (kids.get? i) (depth + 1)
    simp only [callsLeft, List.length_cons]
    omega

end Node

/-! ### Insertion into tries -/

namespace Trie

variable {ε κ : Type} [BEq κ] [Hashed κ] [Keyed ε κ]

/-- A run of an insertion into a trie: the depths of its calls, and what comes of it. -/
def InsertRun (t : Trie ε) (entry : ε) (calls : List Nat) (done : Node ε × Option ε) : Prop :=
  Node.InsertRun entry (hashValue (Keyed.key entry)) t.root 0
    (.ofHash (hashValue (Keyed.key entry))) calls done

/-- What comes of a run is what insertion leaves and hands back. -/
def Yields (t : Trie ε) (entry : ε) (done : Node ε × Option ε) : Prop :=
  (t.insert entry).1.root = some done.1 ∧ (t.insert entry).2 = done.2

theorem exists_insertRun (t : Trie ε) (entry : ε) :
    ∃ calls done, t.InsertRun entry calls done ∧ t.Yields entry done := by
  obtain ⟨root, size, hash, stamp⟩ := t
  rcases root with _ | node
  · exact ⟨_, _, .vacant, rfl, rfl⟩
  · obtain ⟨calls, hrun⟩ := Node.exists_insertRun entry (hashValue (Keyed.key entry)) node 0
      (.ofHash (hashValue (Keyed.key entry)))
    refine ⟨calls, _, hrun, ?_⟩
    rcases hinsert : node.insert entry (hashValue (Keyed.key entry)) 0
      (.ofHash (hashValue (Keyed.key entry))) with ⟨after, _ | old⟩
    all_goals simp [Yields, insert, insertHashed, hinsert]

/-- Insertion ends, and none of its calls goes below the full depth. -/
structure InsertsWithinDepth (t : Trie ε) (entry : ε) : Prop where
  finishes : ∃ calls done, t.InsertRun entry calls done
  yields : ∀ calls done, t.InsertRun entry calls done → t.Yields entry done
  within : ∀ calls done, t.InsertRun entry calls done → ∀ depth ∈ calls, depth ≤ maxDepth
  /-- There are two calls for each level at most, and one at the end. -/
  short : ∀ calls done, t.InsertRun entry calls done → calls.length ≤ 2 * maxDepth + 1

theorem WellFormed.insertsWithinDepth {ok : κ → Prop} {t : Trie ε} (h : t.WellFormed ok)
    (entry : ε) : t.InsertsWithinDepth entry := by
  obtain ⟨calls, done, hrun, hyields⟩ := t.exists_insertRun entry
  have hshallow : ∀ root, t.root = some root → root.Shallow 0 := fun root hroot =>
    (h.nodes root hroot).shallow
  refine ⟨⟨calls, done, hrun⟩, ?yields, ?within, ?short⟩
  case yields =>
    intro calls' done' hrun'
    obtain ⟨-, rfl⟩ := hrun.unique hrun'
    exact hyields
  case within =>
    intro calls' done' hrun'
    exact hrun'.forall_le (Nat.zero_le _) hshallow
  case short =>
    intro calls' done' hrun'
    exact Nat.le_trans (hrun'.length_le hshallow) (Node.callsLeft_le t.root 0)

end Trie

/-- **Insertion ends, and it keeps to the full depth.**  This holds for all lawful keys, whatever
    their hashes are: in every set or map that the operations make, the insertion of any entry has
    one run, of two calls for each level at most, and no call goes below the full depth.  Before and
    after it no node lies below the full depth, different keys that take the same slots all the way
    are in one list of collisions there, and keys that first take different slots at some depth are
    below two slots of one branch at that depth. -/
theorem insertion_keeps_to_full_depth {κ ν : Type} [BEq κ] [Hashed κ] [Hashed ν] {ok : κ → Prop}
    (law : LawfulOn ok) :
    (∀ s : TrieSet κ, s.Reachable ok → s.trie.Layered ∧
      ∀ x, ok x → s.trie.InsertsWithinDepth ⟨x⟩ ∧ (s.insert x).trie.Layered) ∧
    ∀ m : TrieMap κ ν, m.Reachable ok → m.trie.Layered ∧
      ∀ k v, ok k → m.trie.InsertsWithinDepth (k, v) ∧ (m.insert k v).trie.Layered := by
  constructor
  · intro s hs
    refine ⟨(hs.wellFormed law).layered law, fun x hx => ?_⟩
    exact ⟨(hs.wellFormed law).insertsWithinDepth ⟨x⟩,
      ((hs.insert hx).wellFormed law).layered law⟩
  · intro m hm
    refine ⟨(hm.wellFormed law).layered law, fun k v hk => ?_⟩
    exact ⟨(hm.wellFormed law).insertsWithinDepth (k, v),
      ((hm.insert hk v).wellFormed law).layered law⟩

/-- Two keys that have all their hashes in common.  The second one is inserted beside the first, and
    the two end up in one list at the full depth. -/
theorem insertion_keeps_to_full_depth_cluster :
    let a : ClusterKey := ⟨7, 1, ""⟩
    let b : ClusterKey := ⟨7, 2, ""⟩
    let s : TrieSet ClusterKey := .unit a
    let m : TrieMap ClusterKey Int64 := .unit a 10
    s.Reachable (fun _ => True) ∧ m.Reachable (fun _ => True) ∧
      s.trie.InsertsWithinDepth ⟨b⟩ ∧ (s.insert b).trie.Layered ∧
      m.trie.InsertsWithinDepth (b, 20) ∧ (m.insert b 20).trie.Layered ∧
      ∃ es, (s.insert b).trie.LiesAt maxDepth (.collision es) ∧
        (∃ p ∈ es, p.1.value = a) ∧ ∃ p ∈ es, p.1.value = b := by
  intro a b s m
  have law : LawfulOn fun _ : ClusterKey => True := lawfulOn_true
  have hs : s.Reachable fun _ => True := .unit trivial
  have hm : m.Reachable fun _ => True := .unit trivial 10
  obtain ⟨hsets, hmaps⟩ := insertion_keeps_to_full_depth (ν := Int64) law
  obtain ⟨hinsert, hlayered⟩ := (hsets s hs).2 b trivial
  obtain ⟨hinsert', hlayered'⟩ := (hmaps m hm).2 b 20 trivial
  have hne : (a == b) = false := by decide
  have hne' : (b == a) = false := by decide
  have hwf := (hs.insert (x := b) trivial).wellFormed law
  have hcomprises : (TrieSet.ofList [a, b]).Comprises (fun _ => True) (· ∈ [a, b]) :=
    TrieSet.comprises_ofList law fun _ _ => trivial
  -- what is stored for either key is the key itself, as the other one does not equal it
  have hstored : ∀ x ∈ [a, b], ∃ p ∈ (s.insert b).trie.entries, p.1.value = x := by
    intro x hx
    obtain ⟨y, hy, heq⟩ := hcomprises.exists_mem law hwf hx
    have hmem := TrieSet.mem_of_mem_ofList law (fun _ _ => trivial) hy
    obtain ⟨p, hp, rfl⟩ := List.mem_map.mp hy
    refine ⟨p, hp, ?_⟩
    rcases List.mem_pair.mp hx with rfl | rfl <;> rcases List.mem_pair.mp hmem with h | h
    · exact h
    · rw [h, hne] at heq
      cases heq
    · rw [h, hne'] at heq
      cases heq
    · exact h
  obtain ⟨p, hp, hpa⟩ := hstored a (by simp)
  obtain ⟨q, hq, hqb⟩ := hstored b (by simp)
  have hshare : SharePath a b := sharePath_of_hashSeeded_eq fun _ => rfl
  obtain ⟨es, hlies, hpes, hqes⟩ :=
    hlayered.together p hp q hq (by rw [← hne, ← hpa, ← hqb]; rfl) (by rwa [← hpa, ← hqb] at hshare)
  exact ⟨hs, hm, hinsert, hlayered, hinsert', hlayered', es, hlies, ⟨p, hpes, hpa⟩, q, hqes, hqb⟩

end TrieCollections
