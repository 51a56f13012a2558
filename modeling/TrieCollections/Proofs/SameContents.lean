/-
  TrieCollections/Proofs/SameContents.lean
  ========================================
  **Collections with the same contents.**  The comparison `==` looks at sizes and hashes and
  then looks up every entry of one side on the other.  With trusted counters that is exact:
  equal sets have matched entries, and sets with matched entries are equal and have equal
  hashes.  For maps the same holds of the keys, and the values have to be equal besides.

  What a collection holds thus decides all that can be seen of it: whether it is equal to
  another one, its hash, the shape of its trie, and up to collisions the order of a walk.
  The edits by which it came about do not matter (`contents_decide`).
-/
import TrieCollections.Proofs.CanonicalShape
import TrieCollections.Proofs.Reachable

namespace TrieCollections

/-! ### Sets -/

namespace TrieSet

variable {α : Type} [BEq α] [Hashed α] {ok : α → Prop} {s t : TrieSet α}

theorem contains_eq (s : TrieSet α) (x : α) : s.contains x = (s.trie.get? x).isSome := by
  rw [contains, get?, Option.isSome_map]

/-- Equal sets consist of the same words: both words are compared. -/
theorem words_eq_of_beq (h : (s == t) = true) : Hashed.words s = Hashed.words t := by
  have h' : (s.size == t.size && s.hash == t.hash && (false || s.within t)) = true := h
  simp only [Bool.and_eq_true, beq_iff_eq] at h'
  simp [Hashed.words, h'.1]

theorem hashSeeded_eq_of_beq (h : (s == t) = true) (seed : UInt64) :
    hashSeeded seed s = hashSeeded seed t := by
  rw [hashSeeded, hashSeeded, words_eq_of_beq h]

variable (law : LawfulOn ok)

include law

/-- The walk of a comparison finds every member when every member has a partner. -/
theorem within_iff (hs : s.trie.WellFormed ok) (ht : t.trie.WellFormed ok) :
    s.within t = true ↔ Covers s.trie.entries t.trie.entries := by
  rw [within, List.all_eq_true, hs.covers_iff law ht]
  refine forall₂_congr fun p hp => ?_
  rw [(hs.stored p hp).hash]
  rfl

/-- **Sets are equal when their entries are matched.** -/
theorem beq_iff_matched (hs : s.trie.WellFormed ok) (ht : t.trie.WellFormed ok) :
    (s == t) = true ↔ Matched s.trie.entries t.trie.entries := by
  show (s.size == t.size && s.hash == t.hash && (false || s.within t)) = true ↔ _
  rw [Bool.false_or, Bool.and_eq_true, Bool.and_eq_true, beq_iff_eq, beq_iff_eq,
    within_iff law hs ht]
  constructor
  · rintro ⟨⟨hsize, -⟩, hcover⟩
    refine hcover.matched_of_length law hs.stored ht.stored (hs.distinct law) ?_
    rw [← hs.size_eq, ← ht.size_eq]
    exact Nat.le_of_eq hsize.symm
  · intro h
    refine ⟨⟨?_, ?_⟩, h.covers⟩
    · rw [size, size, hs.size_eq, ht.size_eq]
      exact h.length_eq
    · rw [hash, hash, hs.hash_eq, ht.hash_eq]
      exact h.combined_eq fun p _ q _ hpq => hpq.hashes

theorem matched_of_contains (hs : s.trie.WellFormed ok) (ht : t.trie.WellFormed ok)
    (hsame : ∀ x, ok x → s.contains x = t.contains x) : Matched s.trie.entries t.trie.entries := by
  simp only [contains_eq] at hsame
  exact matched_of_covers law hs.stored ht.stored (hs.distinct law) (ht.distinct law)
    (hs.covers_of_found law ht fun x hx h => hsame x hx ▸ h)
    (ht.covers_of_found law hs fun x hx h => (hsame x hx).symm ▸ h)

end TrieSet

/-! ### Maps -/

namespace TrieMap

variable {κ ν : Type} [BEq κ] [Hashed κ] [Hashed ν] {ok : κ → Prop} {m n : TrieMap κ ν}

theorem contains_eq (m : TrieMap κ ν) (k : κ) : m.contains k = (m.trie.get? k).isSome := by
  rw [contains, get?, Option.isSome_map, getEntry?]

theorem words_eq_of_beq [BEq ν] (h : (m == n) = true) : Hashed.words m = Hashed.words n := by
  have h' : (m.size == n.size && m.hash == n.hash && (false || m.within n)) = true := h
  simp only [Bool.and_eq_true, beq_iff_eq] at h'
  simp [Hashed.words, h'.1]

theorem hashSeeded_eq_of_beq [BEq ν] (h : (m == n) = true) (seed : UInt64) :
    hashSeeded seed m = hashSeeded seed n := by
  rw [hashSeeded, hashSeeded, words_eq_of_beq h]

variable (law : LawfulOn ok)

include law

theorem matched_of_contains (hm : m.trie.WellFormed ok) (hn : n.trie.WellFormed ok)
    (hsame : ∀ k, ok k → m.contains k = n.contains k) : Matched m.trie.entries n.trie.entries := by
  simp only [contains_eq] at hsame
  exact matched_of_covers law hm.stored hn.stored (hm.distinct law) (hn.distinct law)
    (hm.covers_of_found law hn fun k hk h => hsame k hk ▸ h)
    (hn.covers_of_found law hm fun k hk h => (hsame k hk).symm ▸ h)

theorem get?_of_mem (hm : m.trie.WellFormed ok) {p : (κ × ν) × UInt64} (hp : p ∈ m.trie.entries)
    {k : κ} (hk : ok k) (heq : (k == p.1.1) = true) : m.get? k = some p.1.2 := by
  rw [get?, getEntry?, (hm.get?_eq_some_iff law hk).mpr ⟨p.2, hp, heq⟩]
  rfl

variable [BEq ν]

/-- The walk of a comparison succeeds when every entry has a partner with an equal value. -/
theorem within_iff (hm : m.trie.WellFormed ok) (hn : n.trie.WellFormed ok) :
    m.within n = true ↔
      ∀ p ∈ m.trie.entries, ∃ q ∈ n.trie.entries, SameKey p q ∧ (p.1.2 == q.1.2) = true := by
  rw [within, List.all_eq_true]
  refine forall₂_congr fun p hp => ?_
  have hsp := hm.stored p hp
  rw [hsp.hash, Option.any_eq_true]
  constructor
  · rintro ⟨e, he, hvalue⟩
    obtain ⟨hash, hmem, heq⟩ := (hn.get?_eq_some_iff law hsp.lawful).mp he
    exact ⟨(e, hash), hmem, .of_beq law hsp (hn.stored _ hmem) heq, hvalue⟩
  · rintro ⟨q, hq, hpq, hvalue⟩
    exact ⟨q.1, (hn.get?_eq_some_iff law hsp.lawful).mpr ⟨q.2, hq, hpq.keys⟩, hvalue⟩

theorem matched_of_beq (hm : m.trie.WellFormed ok) (hn : n.trie.WellFormed ok)
    (h : (m == n) = true) : Matched m.trie.entries n.trie.entries := by
  have h' : (m.size == n.size && m.hash == n.hash && (false || m.within n)) = true := h
  rw [Bool.false_or, Bool.and_eq_true, Bool.and_eq_true, beq_iff_eq, beq_iff_eq,
    within_iff law hm hn] at h'
  obtain ⟨⟨hsize, -⟩, hfound⟩ := h'
  have hcover : Covers m.trie.entries n.trie.entries := by
    intro p hp
    obtain ⟨q, hq, hpq, -⟩ := hfound p hp
    exact ⟨q, hq, hpq⟩
  refine hcover.matched_of_length law hm.stored hn.stored (hm.distinct law) ?_
  rw [← hm.size_eq, ← hn.size_eq]
  exact Nat.le_of_eq hsize.symm

/-- **Maps with equal values under the same keys are equal**, on values that are hashed as
    they are compared. -/
theorem beq_of_sameContents {okValue : ν → Prop} (lawValue : LawfulOn okValue)
    (hm : m.trie.WellFormed ok) (hn : n.trie.WellFormed ok)
    (hmValues : ∀ e ∈ m.toList, okValue e.2) (hnValues : ∀ e ∈ n.toList, okValue e.2)
    (hsame : ∀ k, ok k → Option.Rel (fun v w => (v == w) = true) (m.get? k) (n.get? k)) :
    (m == n) = true := by
  have hmatched : Matched m.trie.entries n.trie.entries := by
    refine matched_of_contains law hm hn fun k hk => ?_
    have hrel := hsame k hk
    rw [contains, contains]
    generalize m.get? k = v, n.get? k = w at hrel
    cases hrel <;> rfl
  -- partners have the values that are found under their key
  have hvalue : ∀ p ∈ m.trie.entries, ∀ q ∈ n.trie.entries, SameKey p q →
      (p.1.2 == q.1.2) = true := by
    intro p hp q hq hpq
    have hk : ok p.1.1 := hm.lawful p hp
    have hrel := hsame p.1.1 hk
    rw [get?_of_mem law hm hp hk (law.refl hk), get?_of_mem law hn hq hk hpq.keys] at hrel
    cases hrel with
    | some h => exact h
  show (m.size == n.size && m.hash == n.hash && (false || m.within n)) = true
  rw [Bool.false_or, Bool.and_eq_true, Bool.and_eq_true, beq_iff_eq, beq_iff_eq,
    within_iff law hm hn]
  refine ⟨⟨?_, ?_⟩, ?_⟩
  · rw [size, size, hm.size_eq, hn.size_eq]
    exact hmatched.length_eq
  · rw [hash, hash, hm.hash_eq, hn.hash_eq]
    refine hmatched.combined_eq fun p hp q hq hpq => ?_
    show hashSeeded p.2 p.1.2 = hashSeeded q.2 q.1.2
    rw [hpq.hashes]
    exact lawValue.hashSeeded_congr (hmValues _ (List.mem_map_of_mem hp))
      (hnValues _ (List.mem_map_of_mem hq)) (hvalue p hp q hq hpq) q.2
  · intro p hp
    obtain ⟨q, hq, hpq⟩ := hmatched.covers p hp
    exact ⟨q, hq, hpq, hvalue p hp q hq hpq⟩

end TrieMap

/-! ### What the contents decide -/

/-- **Contents decide, and history does not.**  Let two collections come about in any ways.
    If they have the same keys, their tries have the same shape.  If they are equal and
    free of collisions, they list equal keys in one order.  And builders that start from
    them and take any steps finish with equal collections of equal hashes as soon as the
    final contents agree: for maps, with values that are hashed as they are compared. -/
theorem contents_decide {κ ν : Type} [BEq κ] [Hashed κ] [BEq ν] [Hashed ν] {ok : κ → Prop}
    {okValue : ν → Prop} (law : LawfulOn ok) (lawValue : LawfulOn okValue) :
    (∀ s t : TrieSet κ, s.Reachable ok → t.Reachable ok →
      ((∀ x, ok x → s.contains x = t.contains x) → s.trie.SameShape t.trie) ∧
      ((s == t) = true → s.trie.NoCollision →
        List.Forall₂ (fun x y => (x == y) = true) s.toList t.toList) ∧
      ∀ steps steps' : List (SetBuilder.Step κ),
        (∀ step ∈ steps, ∀ x ∈ step.keys, ok x) → (∀ step ∈ steps', ∀ x ∈ step.keys, ok x) →
        let built := ((SetBuilder.ofSet s).run steps).finish
        let built' := ((SetBuilder.ofSet t).run steps').finish
        (∀ x, ok x → built.contains x = built'.contains x) →
          (built == built') = true ∧ hashValue built = hashValue built') ∧
    ∀ m n : TrieMap κ ν, m.Reachable ok → n.Reachable ok →
      ((∀ k, ok k → m.contains k = n.contains k) → m.trie.SameShape n.trie) ∧
      ((m == n) = true → m.trie.NoCollision →
        List.Forall₂ (fun k l => (k == l) = true) m.keys n.keys) ∧
      ∀ steps steps' : List (MapBuilder.Step κ ν),
        (∀ step ∈ steps, ∀ k ∈ step.keys, ok k) → (∀ step ∈ steps', ∀ k ∈ step.keys, ok k) →
        let built := ((MapBuilder.ofMap m).run steps).finish
        let built' := ((MapBuilder.ofMap n).run steps').finish
        (∀ e ∈ built.toList, okValue e.2) → (∀ e ∈ built'.toList, okValue e.2) →
        (∀ k, ok k → Option.Rel (fun v w => (v == w) = true) (built.get? k) (built'.get? k)) →
          (built == built') = true ∧ hashValue built = hashValue built' := by
  constructor
  · intro s t hs ht
    have hws := hs.wellFormed law
    have hwt := ht.wellFormed law
    refine ⟨fun hsame => ?_, fun heq hnone => ?_, fun steps steps' hsteps hsteps' => ?_⟩
    · exact hws.sameShape law hwt (TrieSet.matched_of_contains law hws hwt hsame)
    · have hshape := hws.sameShape law hwt ((TrieSet.beq_iff_matched law hws hwt).mp heq)
      rw [TrieSet.toList, TrieSet.toList, List.forall₂_map_left_iff, List.forall₂_map_right_iff]
      exact (hws.forall₂_entries hwt hshape hnone).imp fun p q hpq => hpq.keys
    · intro built built' hsame
      have hbuilt : built.trie.WellFormed ok := (hs.finish hsteps).wellFormed law
      have hbuilt' : built'.trie.WellFormed ok := (ht.finish hsteps').wellFormed law
      have heq : (built == built') = true := (TrieSet.beq_iff_matched law hbuilt hbuilt').mpr
        (TrieSet.matched_of_contains law hbuilt hbuilt' hsame)
      exact ⟨heq, TrieSet.hashSeeded_eq_of_beq heq 0⟩
  · intro m n hm hn
    have hwm := hm.wellFormed law
    have hwn := hn.wellFormed law
    refine ⟨fun hsame => ?_, fun heq hnone => ?_, fun steps steps' hsteps hsteps' => ?_⟩
    · exact hwm.sameShape law hwn (TrieMap.matched_of_contains law hwm hwn hsame)
    · have hshape := hwm.sameShape law hwn (TrieMap.matched_of_beq law hwm hwn heq)
      rw [TrieMap.keys, TrieMap.keys, TrieMap.toList, TrieMap.toList, List.map_map, List.map_map,
        List.forall₂_map_left_iff, List.forall₂_map_right_iff]
      exact (hwm.forall₂_entries hwn hshape hnone).imp fun p q hpq => hpq.keys
    · intro built built' hvalues hvalues' hsame
      have heq : (built == built') = true := TrieMap.beq_of_sameContents law lawValue
        ((hm.finish hsteps).wellFormed law) ((hn.finish hsteps').wellFormed law) hvalues hvalues'
        hsame
      exact ⟨heq, TrieMap.hashSeeded_eq_of_beq heq 0⟩

/-- Two builders that reach the same two colliding members, one by way of a third. -/
theorem contents_decide_colliding :
    LawfulOn (fun _ : ClusterKey => True) ∧ LawfulOn (fun _ : Int64 => True) ∧
    let built := ((SetBuilder.ofSet .empty).run
      [.add ⟨7, 1, "a"⟩, .add (⟨7, 2, "b"⟩ : ClusterKey)]).finish
    let built' := ((SetBuilder.ofSet .empty).run
      [.extend [⟨7, 2, "c"⟩, ⟨7, 3, "d"⟩, ⟨7, 1, "e"⟩], .remove (⟨7, 3, "f"⟩ : ClusterKey)]).finish
    (built == built') = true ∧ hashValue built = hashValue built' := by
  refine ⟨lawfulOn_true, lawfulOn_true, ?_⟩
  refine ((@contents_decide ClusterKey Int64 _ _ _ _ _ _ lawfulOn_true lawfulOn_true).1 _ _
    .empty .empty).2.2 _ _ (fun _ _ _ _ => trivial) (fun _ _ _ _ => trivial) ?_
  intro x _
  have hinserted : ∀ xs : List ClusterKey,
      (TrieSet.empty.insertMany xs).trie.WellFormed fun _ => True := fun xs =>
    TrieSet.wellFormed_insertMany lawfulOn_true TrieSet.wellFormed_empty fun _ _ => trivial
  show (TrieSet.empty.insertMany [⟨7, 1, "a"⟩, ⟨7, 2, "b"⟩]).contains x =
    ((TrieSet.empty.insertMany [⟨7, 2, "c"⟩, ⟨7, 3, "d"⟩, ⟨7, 1, "e"⟩]).erase
      ⟨7, 3, "f"⟩).contains x
  rw [TrieSet.contains_erase lawfulOn_true (hinserted _) trivial trivial,
    TrieSet.contains_insertMany lawfulOn_true TrieSet.wellFormed_empty (fun _ _ => trivial) trivial,
    TrieSet.contains_insertMany lawfulOn_true TrieSet.wellFormed_empty (fun _ _ => trivial) trivial]
  have hempty : (TrieSet.empty : TrieSet ClusterKey).contains x = false := rfl
  rw [hempty, Bool.eq_iff_iff]
  simp only [List.any_cons, List.any_nil, Bool.or_false, Bool.or_eq_true, Bool.and_eq_true,
    Bool.not_eq_true', Bool.eq_false_iff, ne_eq, ClusterKey.beq_iff]
  grind

end TrieCollections
