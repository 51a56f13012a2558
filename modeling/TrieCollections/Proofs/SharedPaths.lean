/-
  TrieCollections/Proofs/SharedPaths.lean
  =======================================
  **Keys on one path.**  A trie keeps two keys apart by the slots that they take, and it looks at
  as many slots as it has levels.  Keys that take the same ones on all levels share a path
  (`SharePath`), and then only a list of collisions is left for them.  So a trie has such a list
  exactly when it has two keys on one path (`noCollision_iff`).

  When does that happen?  Four rounds of the stream make the path, and sixty bits of a hash make a
  round, so two keys share a path when their hashes agree on these bits four times over
  (`sharePath_iff_roundBits`).  That the rounds have seeds of their own is of no help where two
  keys cannot be told apart under any seed, and there are such values:

    * complex numbers of which the parts differ in the top bit here and in bit 4 there, as the two
      flips cancel in mixing (`Value.hashSeeded_complex`);
    * sets of one size whose combined hashes are equal, whatever is in them, as a set is hashed by
      these two (`Value.hashSeeded_set`).

  So the list of collisions is not there for the sake of keys that are hashed carelessly.  The
  values of this library need it.
-/
import TrieCollections.Proofs.BuiltValues
import TrieCollections.Proofs.Mixing
import TrieCollections.Proofs.StreamRounds

namespace TrieCollections

open Hashing (topBit)

/-! ### Paths -/

section Paths

variable {κ : Type} [Hashed κ]

/-- The keys take the same slots on all levels of a trie. -/
def SharePath (x y : κ) : Prop := ∀ depth < maxDepth, homeSlot x depth = homeSlot y depth

/-- **A path is four rounds of sixty bits.** -/
theorem sharePath_iff_roundBits (x y : κ) :
    SharePath x y ↔ ∀ round < 4, roundBits x round = roundBits y round := by
  simp only [← round_agrees_iff]
  have hlevels : maxDepth = slotsPerRound * 4 := rfl
  rw [SharePath, hlevels]
  constructor
  · intro h round hround i hi
    apply h
    rw [slotsPerRound] at hi ⊢
    omega
  · intro h depth hdepth
    rw [← Nat.div_add_mod depth slotsPerRound]
    exact h _ (Nat.div_lt_of_lt_mul hdepth) _ (Nat.mod_lt _ (by decide))

theorem not_sharePath_iff {x y : κ} :
    ¬ SharePath x y ↔ ∃ depth < maxDepth, homeSlot x depth ≠ homeSlot y depth := by
  simp [SharePath]

theorem sharePath_of_hashSeeded_eq {x y : κ} (h : ∀ seed, hashSeeded seed x = hashSeeded seed y) :
    SharePath x y := fun depth _ => homeSlot_eq_of_hashSeeded_eq h depth

theorem SharePath.congr [BEq κ] {ok : κ → Prop} (law : LawfulOn ok) {x x' y y' : κ} (hx : ok x)
    (hx' : ok x') (hy : ok y) (hy' : ok y') (hxx' : (x == x') = true) (hyy' : (y == y') = true)
    (h : SharePath x y) : SharePath x' y' := by
  intro depth hdepth
  rw [← homeSlot_congr law hx hx' hxx' depth, h depth hdepth, homeSlot_congr law hy hy' hyy' depth]

end Paths

/-! ### Lists of collisions -/

section Collisions

variable {ε κ : Type} [BEq κ] [Hashed κ] [Keyed ε κ] {ok : κ → Prop} (law : LawfulOn ok)

include law

/-- **A node without collisions has no two keys on one path**, and the other way round.  By
    induction on the node, whose keys have shared all slots above it. -/
theorem Node.WellFormed.noCollision_iff {node : Node ε} {depth : Nat}
    (h : node.WellFormed ok depth)
    (habove : ∀ p ∈ node.entries, ∀ q ∈ node.entries, ∀ d < depth,
      homeSlot (Keyed.key p.1) d = homeSlot (Keyed.key q.1) d) :
    node.NoCollision ↔ ∀ p ∈ node.entries, ∀ q ∈ node.entries,
      SharePath (Keyed.key p.1) (Keyed.key q.1) → (Keyed.key p.1 == Keyed.key q.1) = true := by
  induction h with
  | @leaf depth e hash deep stored =>
    refine iff_of_true .leaf ?_
    intro p hp q hq _
    rw [Node.entries_leaf, List.mem_singleton] at hp hq
    rw [hp, hq]
    exact law.refl stored.lawful
  | @collision es two stored distinct =>
    refine iff_of_false (fun hnone => by cases hnone) ?_
    intro hequal
    rw [Node.entries_collision] at habove hequal
    obtain ⟨p, q, rest, rfl⟩ : ∃ p q rest, es = p :: q :: rest := by
      match es, two with
      | p :: q :: rest, _ => exact ⟨p, q, rest, rfl⟩
    have hp : p ∈ p :: q :: rest := List.mem_cons_self
    have hq : q ∈ p :: q :: rest := List.mem_cons_of_mem _ List.mem_cons_self
    have hne := (List.rel_of_pairwise_cons distinct List.mem_cons_self).1
    rw [hequal p hp q hq fun d hd => habove p hp q hq d hd] at hne
    cases hne
  | @branch depth kids deep exact two below routed ih =>
    have hslot : ∀ i kid, kids.get? i = some kid → ∀ p ∈ kid.entries,
        p ∈ (Node.branch kids).entries := fun i kid hi p hp =>
      (Node.mem_entries_branch exact).mpr ⟨i, kid, hi, hp⟩
    -- below a slot one more level has been shared
    have hkid : ∀ i kid, kids.get? i = some kid → (kid.NoCollision ↔
        ∀ p ∈ kid.entries, ∀ q ∈ kid.entries,
          SharePath (Keyed.key p.1) (Keyed.key q.1) → (Keyed.key p.1 == Keyed.key q.1) = true) := by
      intro i kid hi
      refine ih i kid hi ?_
      intro p hp q hq d hd
      rcases Nat.lt_succ_iff_lt_or_eq.mp hd with hd | rfl
      · exact habove p (hslot i kid hi p hp) q (hslot i kid hi q hq) d hd
      · rw [routed i kid hi p hp, routed i kid hi q hq]
    constructor
    · intro hnone p hp q hq hshare
      obtain ⟨i, kid, hi, hp⟩ := (Node.mem_entries_branch exact).mp hp
      obtain ⟨j, kid', hj, hq⟩ := (Node.mem_entries_branch exact).mp hq
      have hsame := hshare depth deep
      rw [routed i kid hi p hp, routed j kid' hj q hq] at hsame
      obtain rfl := hsame
      obtain rfl := Option.some.inj (hi.symm.trans hj)
      cases hnone with
      | branch hbelow => exact (hkid i kid hi).mp (hbelow i kid hi) p hp q hq hshare
    · intro hequal
      refine .branch fun i kid hi => (hkid i kid hi).mpr ?_
      intro p hp q hq
      exact hequal p (hslot i kid hi p hp) q (hslot i kid hi q hq)

theorem Trie.WellFormed.noCollision_iff {t : Trie ε} (h : t.WellFormed ok) :
    t.NoCollision ↔ ∀ p ∈ t.entries, ∀ q ∈ t.entries,
      SharePath (Keyed.key p.1) (Keyed.key q.1) → (Keyed.key p.1 == Keyed.key q.1) = true := by
  rw [Trie.entries_eq, Trie.NoCollision]
  rcases hroot : t.root with _ | node
  · simp
  · rw [Node.entriesOf_some]
    have hnode := (h.nodes node hroot).noCollision_iff law
      fun _ _ _ _ d hd => absurd hd d.not_lt_zero
    rw [← hnode]
    constructor
    · intro hnone
      exact hnone node rfl
    · rintro hnone _ heq
      exact Option.some.inj heq ▸ hnone

end Collisions

theorem TrieSet.noCollision_iff {α : Type} [BEq α] [Hashed α] {ok : α → Prop} (law : LawfulOn ok)
    {s : TrieSet α} (hs : s.trie.WellFormed ok) :
    s.trie.NoCollision ↔
      ∀ x ∈ s.toList, ∀ y ∈ s.toList, SharePath x y → (x == y) = true := by
  rw [hs.noCollision_iff law, toList]
  simp only [List.forall_mem_map]
  rfl

theorem TrieMap.noCollision_iff {κ ν : Type} [BEq κ] [Hashed κ] [Hashed ν] {ok : κ → Prop}
    (law : LawfulOn ok) {m : TrieMap κ ν} (hm : m.trie.WellFormed ok) :
    m.trie.NoCollision ↔
      ∀ e ∈ m.toList, ∀ f ∈ m.toList, SharePath e.1 f.1 → (e.1 == f.1) = true := by
  rw [hm.noCollision_iff law, toList]
  simp only [List.forall_mem_map]
  rfl

/-! ### Values on one path -/

namespace Value

/-- Values whose words differ in one place can be told apart by their hashes, under every seed. -/
theorem hashSeeded_ne_of_one_word {a b : Value} {front rest : List UInt64} {w v : UInt64}
    (ha : Hashed.words a = front ++ w :: rest) (hb : Hashed.words b = front ++ v :: rest)
    (hne : w ≠ v) (seed : UInt64) : hashSeeded seed a ≠ hashSeeded seed b := by
  rw [hashSeeded, hashSeeded, ha, hb]
  exact Hashing.hashWords_ne_of_one_word seed front rest hne

/-- **Two flips that no hash shows**: the top bit of the one part of a complex number and bit 4 of
    the other. -/
theorem hashSeeded_complex {re im re' im' : FloatKey} (hre : re'.bits = re.bits ^^^ topBit)
    (him : im'.bits = im.bits ^^^ 16) (seed : UInt64) :
    hashSeeded seed (complex re im) = hashSeeded seed (complex re' im') := by
  have hwords : ∀ x y : FloatKey,
      Hashed.words (complex x y) = [Kind.complex.number.toUInt64, x.bits, y.bits] := fun _ _ => rfl
  rw [hashSeeded, hashSeeded, hwords, hwords, hre, him]
  exact (Hashing.hashWords_flipped seed [Kind.complex.number.toUInt64] [] re.bits im.bits).symm

/-- Sets of one size and with one combined hash are hashed alike. -/
theorem hashSeeded_set {s t : TrieSet Value} (hsize : s.size = t.size) (hhash : s.hash = t.hash)
    (seed : UInt64) : hashSeeded seed (set s) = hashSeeded seed (set t) := by
  have hwords : ∀ r : TrieSet Value,
      Hashed.words (set r) = [Kind.set.number.toUInt64, lengthWord r.size, r.hash] := fun _ => rfl
  rw [hashSeeded, hashSeeded, hwords, hwords, hsize, hhash]

end Value

/-- **When different values part, and when they do not.**  Two values part on some level exactly
    when in one of four rounds their hashes differ in one of sixty bits.  A set or map over values
    has no list of collisions exactly when any two different keys in it part.  Values whose words
    differ in one place have different hashes under every seed, but complex numbers that differ by
    two flips never part, nor do sets of one size with one combined hash. -/
theorem collisions_iff_shared_paths {ν : Type} [Hashed ν] {s : TrieSet Value}
    (hs : s.Reachable Value.Built) {m : TrieMap Value ν} (hm : m.Reachable Value.Built)
    (a b : Value) :
    ((∃ depth < maxDepth, homeSlot a depth ≠ homeSlot b depth) ↔
      ∃ round < 4, roundBits a round ≠ roundBits b round) ∧
    (s.trie.NoCollision ↔ ∀ x ∈ s.toList, ∀ y ∈ s.toList, (x == y) = false →
      ∃ depth < maxDepth, homeSlot x depth ≠ homeSlot y depth) ∧
    (m.trie.NoCollision ↔ ∀ e ∈ m.toList, ∀ f ∈ m.toList, (e.1 == f.1) = false →
      ∃ depth < maxDepth, homeSlot e.1 depth ≠ homeSlot f.1 depth) ∧
    (∀ (front rest : List UInt64) (w v : UInt64), Hashed.words a = front ++ w :: rest →
      Hashed.words b = front ++ v :: rest → w ≠ v →
        ∀ seed, hashSeeded seed a ≠ hashSeeded seed b) ∧
    (∀ re im re' im' : FloatKey, a = .complex re im → b = .complex re' im' →
      re'.bits = re.bits ^^^ topBit → im'.bits = im.bits ^^^ 16 →
        ∀ depth, homeSlot a depth = homeSlot b depth) ∧
    ∀ t u : TrieSet Value, a = .set t → b = .set u → t.size = u.size → t.hash = u.hash →
      ∀ depth, homeSlot a depth = homeSlot b depth := by
  have law := Value.lawfulOn_built
  refine ⟨?rounds, ?sets, ?maps, ?words, ?numbers, ?nested⟩
  case rounds =>
    rw [← not_sharePath_iff, sharePath_iff_roundBits]
    simp
  case sets =>
    simp only [TrieSet.noCollision_iff law (hs.wellFormed law), ← not_sharePath_iff,
      ← Bool.not_eq_true, not_imp_not]
  case maps =>
    simp only [TrieMap.noCollision_iff law (hm.wellFormed law), ← not_sharePath_iff,
      ← Bool.not_eq_true, not_imp_not]
  case words =>
    intro front rest w v ha hb hne seed
    exact Value.hashSeeded_ne_of_one_word ha hb hne seed
  case numbers =>
    rintro re im re' im' rfl rfl hre him
    exact homeSlot_eq_of_hashSeeded_eq (Value.hashSeeded_complex hre him)
  case nested =>
    rintro t u rfl rfl hsize hhash
    exact homeSlot_eq_of_hashSeeded_eq (Value.hashSeeded_set hsize hhash)

/-- Two integers part in the first round, so the set of them has no list of collisions. -/
theorem collisions_iff_shared_paths_integers :
    let s : TrieSet Value := .ofList [.int 1, .int 2]
    let m : TrieMap Value Value := .ofList [(.int 1, .bool true), (.int 2, .bool true)]
    s.Reachable Value.Built ∧ m.Reachable Value.Built ∧
      (∃ depth < maxDepth, homeSlot (Value.int 1) depth ≠ homeSlot (Value.int 2) depth) ∧
      s.trie.NoCollision ∧ m.trie.NoCollision := by
  intro s m
  let keys : List Value := [.int 1, .int 2]
  have hbuilt : ∀ x ∈ keys, x.Built := by
    simp [keys, Value.Built.int]
  have law : LawfulOn (· ∈ keys) := Value.lawfulOn_built.mono hbuilt
  have hs : s.Reachable Value.Built := .ofList hbuilt
  have hm : m.Reachable Value.Built := .ofList (by simp [Value.Built.int])
  have hpart : roundBits (Value.int 1) 0 ≠ roundBits (Value.int 2) 0 := by decide +kernel
  obtain ⟨hrounds, hsets, hmaps, -⟩ := collisions_iff_shared_paths hs hm (.int 1) (.int 2)
  obtain ⟨depth, hdepth, hslots⟩ := hrounds.mpr ⟨0, by decide, hpart⟩
  have hparted : ∀ x ∈ keys, ∀ y ∈ keys, (x == y) = false →
      ∃ depth < maxDepth, homeSlot x depth ≠ homeSlot y depth := by
    intro x hx y hy hne
    rcases List.mem_pair.mp hx with rfl | rfl <;> rcases List.mem_pair.mp hy with rfl | rfl
    · rw [law.refl hx] at hne
      cases hne
    · exact ⟨depth, hdepth, hslots⟩
    · exact ⟨depth, hdepth, hslots.symm⟩
    · rw [law.refl hx] at hne
      cases hne
  have hmembers : ∀ x ∈ s.toList, x ∈ keys := fun x =>
    TrieSet.lawful_of_mem ((TrieSet.Reachable.ofList fun _ hx => hx).wellFormed law)
  have hkeys : ∀ e ∈ m.toList, e.1 ∈ keys := fun e =>
    TrieMap.lawful_of_mem ((TrieMap.Reachable.ofList (by simp [keys])).wellFormed law)
  refine ⟨hs, hm, ⟨depth, hdepth, hslots⟩, hsets.mpr ?_, hmaps.mpr ?_⟩
  · intro x hx y hy
    exact hparted x (hmembers x hx) y (hmembers y hy)
  · intro e he f hf
    exact hparted e.1 (hkeys e he) f.1 (hkeys f hf)

/-- **Different values do share paths**: two complex numbers, and the sets that hold the one or the
    other.  The set of both numbers has a list of collisions. -/
theorem complex_numbers_share_path :
    let one : FloatKey := ⟨0x3ff0000000000000, by decide⟩
    let minusOne : FloatKey := ⟨0xbff0000000000000, by decide⟩
    let nearOne : FloatKey := ⟨0x3ff0000000000010, by decide⟩
    let a : Value := .complex one one
    let b : Value := .complex minusOne nearOne
    let both : TrieSet Value := (TrieSet.unit a).insert b
    (a == b) = false ∧ SharePath a b ∧
      (Value.set (.unit a) == .set (.unit b)) = false ∧
      SharePath (Value.set (.unit a)) (.set (.unit b)) ∧
      both.Reachable Value.Built ∧ ¬ both.trie.NoCollision := by
  intro one minusOne nearOne a b both
  have law := Value.lawfulOn_built
  have ha : a.Built := .complex one one
  have hb : b.Built := .complex minusOne nearOne
  have hne : (a == b) = false := by
    rw [Value.beq_eq, Value.beq]
    decide
  have hhash : ∀ seed, hashSeeded seed a = hashSeeded seed b :=
    Value.hashSeeded_complex (by decide) (by decide)
  have hshare := sharePath_of_hashSeeded_eq hhash
  have hunits : (Value.set (.unit a) == .set (.unit b)) = false := by
    rw [Value.beq_set, Bool.eq_false_iff, ne_eq, TrieSet.unit_beq_unit law ha hb, hne]
    decide
  have hwf : ∀ {x : Value}, x.Built → (TrieSet.unit x).trie.WellFormed Value.Built := fun hx =>
    (TrieSet.Reachable.unit hx).wellFormed law
  have hnested : SharePath (Value.set (.unit a)) (.set (.unit b)) := by
    apply sharePath_of_hashSeeded_eq
    apply Value.hashSeeded_set
    · rw [TrieSet.size_eq_length (hwf ha), TrieSet.size_eq_length (hwf hb)]
      simp
    · rw [TrieSet.hash_eq_xorAll (hwf ha), TrieSet.hash_eq_xorAll (hwf hb), TrieSet.toList_unit,
        TrieSet.toList_unit, List.map_singleton, List.map_singleton]
      exact congrArg (fun h => xorAll [h]) (hhash 0)
  have hboth : both.Reachable Value.Built := .insert (.unit ha) hb
  have hwb := hboth.wellFormed law
  refine ⟨hne, hshare, hunits, hnested, hboth, ?_⟩
  intro hnone
  rw [TrieSet.noCollision_iff law hwb] at hnone
  have hkept : ∀ z : Value, z.Built → (z == b || z == a) = true →
      ∃ x ∈ both.toList, (z == x) = true := by
    intro z hz heq
    rw [← TrieSet.contains_iff_mem law hwb hz, TrieSet.contains_insert law (hwf ha) hb hz,
      TrieSet.unit, TrieSet.contains_insert law TrieSet.wellFormed_empty ha hz,
      TrieSet.contains_empty, Bool.or_false]
    exact heq
  obtain ⟨x, hx, hax⟩ := hkept a ha (by rw [law.refl ha, Bool.or_true])
  obtain ⟨y, hy, hby⟩ := hkept b hb (by rw [law.refl hb, Bool.true_or])
  have hokx := TrieSet.lawful_of_mem hwb hx
  have hoky := TrieSet.lawful_of_mem hwb hy
  -- the members that are kept share the path too, and are as different
  have hxy := hnone x hx y hy (hshare.congr law ha hokx hb hoky hax hby)
  rw [law.trans ha hokx hb hax (law.trans hokx hoky hb hxy (law.symm hb hoky hby))] at hne
  cases hne

end TrieCollections
