/-
  TrieCollections/Proofs/CollectionEdits.lean
  ===========================================
  **What the operations on sets and maps do.**  A set is a trie of members and a map a trie
  of pairs, so the laws of the edits are those of their tries, read through the member or
  the pair.

  Every operation that makes a set or a map is a run of insertions and removals, or a merge.
  So each of them gives a well-formed trie when its operands have one; where the operands
  only supply elements, it is enough that these elements are lawful keys.
-/
import TrieCollections.Builder
import TrieCollections.Proofs.TrieEdits

namespace TrieCollections

/-! ### Sets -/

namespace TrieSet

variable {α : Type} [BEq α] [Hashed α] {ok : α → Prop} (law : LawfulOn ok)
  {s t : TrieSet α}

theorem lawful_of_mem (hs : s.trie.WellFormed ok) {x : α} (hx : x ∈ s.toList) : ok x := by
  obtain ⟨p, hp, rfl⟩ := List.mem_map.mp hx
  exact (hs.stored p hp).lawful

theorem wellFormed_empty : (empty : TrieSet α).trie.WellFormed ok := Trie.wellFormed_empty

/-- A fold whose steps keep sets well-formed gives a well-formed set. -/
theorem wellFormed_foldl {β : Type} {f : TrieSet α → β → TrieSet α} {xs : List β}
    (hs : s.trie.WellFormed ok)
    (hf : ∀ out : TrieSet α, out.trie.WellFormed ok → ∀ x ∈ xs, (f out x).trie.WellFormed ok) :
    (xs.foldl f s).trie.WellFormed ok :=
  List.foldlRecOn (motive := fun out : TrieSet α => out.trie.WellFormed ok) xs f hs hf

theorem wellFormed_mark (hs : s.trie.WellFormed ok) (stamps : Stamps) :
    (⟨(stamps.mark s.trie).1⟩ : TrieSet α).trie.WellFormed ok := hs.mark stamps

include law

theorem get?_insert (hs : s.trie.WellFormed ok) {x y : α} (hx : ok x) (hy : ok y) :
    (s.insert x).get? y = if y == x then some x else s.get? y := by
  have h := hs.get?_insert law (show ok (Keyed.key (Member.mk x)) from hx) hy
  show ((s.trie.insert ⟨x⟩).1.get? y).map Member.value = _
  rw [h]
  show Option.map Member.value (if y == x then some ⟨x⟩ else _) = _
  split <;> rfl

theorem get?_erase (hs : s.trie.WellFormed ok) {x y : α} (hx : ok x) (hy : ok y) :
    (s.erase x).get? y = if y == x then none else s.get? y := by
  show ((s.trie.remove x).1.get? y).map Member.value = _
  rw [hs.get?_remove law hx hy]
  split <;> rfl

theorem contains_insert (hs : s.trie.WellFormed ok) {x y : α} (hx : ok x) (hy : ok y) :
    (s.insert x).contains y = (y == x || s.contains y) := by
  rw [contains, get?_insert law hs hx hy]
  split <;> simp [contains, *]

theorem contains_erase (hs : s.trie.WellFormed ok) {x y : α} (hx : ok x) (hy : ok y) :
    (s.erase x).contains y = (!(y == x) && s.contains y) := by
  rw [contains, get?_erase law hs hx hy]
  split <;> simp [contains, *]

theorem exchange_snd (hs : s.trie.WellFormed ok) {x : α} (hx : ok x) :
    (s.exchange x).2 = s.get? x :=
  congrArg (Option.map Member.value)
    (hs.insert_snd law (show ok (Keyed.key (Member.mk x)) from hx))

theorem extract_snd (hs : s.trie.WellFormed ok) {x : α} (hx : ok x) :
    (s.extract x).2 = s.get? x :=
  congrArg (Option.map Member.value) (hs.remove_snd law hx)

theorem wellFormed_insert (hs : s.trie.WellFormed ok) {x : α} (hx : ok x) :
    (s.insert x).trie.WellFormed ok :=
  (hs.insert law (show ok (Keyed.key (Member.mk x)) from hx)).1

theorem wellFormed_erase (hs : s.trie.WellFormed ok) {x : α} (hx : ok x) :
    (s.erase x).trie.WellFormed ok := (hs.remove law hx).1

theorem wellFormed_insertMany (hs : s.trie.WellFormed ok) {xs : List α} (hxs : ∀ x ∈ xs, ok x) :
    (s.insertMany xs).trie.WellFormed ok := by
  refine wellFormed_foldl hs ?_
  intro out hout x hx
  exact wellFormed_insert law hout (hxs x hx)

theorem contains_insertMany (hs : s.trie.WellFormed ok) {xs : List α} (hxs : ∀ x ∈ xs, ok x)
    {y : α} (hy : ok y) : (s.insertMany xs).contains y = (xs.any (y == ·) || s.contains y) := by
  induction xs generalizing s with
  | nil => rfl
  | cons x xs ih =>
    have hx := hxs x List.mem_cons_self
    show ((s.insert x).insertMany xs).contains y = _
    rw [ih (wellFormed_insert law hs hx) fun z hz => hxs z (List.mem_cons_of_mem _ hz),
      contains_insert law hs hx hy, List.any_cons, Bool.or_left_comm, Bool.or_assoc]

theorem wellFormed_eraseMany (hs : s.trie.WellFormed ok) {xs : List α} (hxs : ∀ x ∈ xs, ok x) :
    (s.eraseMany xs).trie.WellFormed ok := by
  refine wellFormed_foldl hs ?_
  intro out hout x hx
  exact wellFormed_erase law hout (hxs x hx)

theorem wellFormed_filter (hs : s.trie.WellFormed ok) (p : α → Bool) :
    (s.filter p).trie.WellFormed ok := Trie.WellFormed.filter law hs fun m => p m.value

theorem wellFormed_union (hs : s.trie.WellFormed ok) (ht : t.trie.WellFormed ok) :
    (s.union t).trie.WellFormed ok := MergeRule.union.wellFormed_merge law hs ht

theorem wellFormed_intersection (hs : s.trie.WellFormed ok) (ht : t.trie.WellFormed ok) :
    (s.intersection t).trie.WellFormed ok := MergeRule.intersection.wellFormed_merge law hs ht

theorem wellFormed_difference (hs : s.trie.WellFormed ok) (ht : t.trie.WellFormed ok) :
    (s.difference t).trie.WellFormed ok := MergeRule.difference.wellFormed_merge law hs ht

theorem wellFormed_symmetricDifference (hs : s.trie.WellFormed ok) (ht : t.trie.WellFormed ok) :
    (s.symmetricDifference t).trie.WellFormed ok :=
  MergeRule.symmetricDifference.wellFormed_merge law hs ht

theorem wellFormed_unions {ss : List (TrieSet α)} (hss : ∀ s ∈ ss, s.trie.WellFormed ok) :
    (unions ss).trie.WellFormed ok := by
  refine wellFormed_foldl wellFormed_empty ?_
  intro out hout s hs
  exact wellFormed_union law hout (hss s hs)

/-- The image of any set, as far as its elements are lawful keys. -/
theorem wellFormed_map {β : Type} {f : β → α} {u : TrieSet β} (hf : ∀ x ∈ u.toList, ok (f x)) :
    (u.map f).trie.WellFormed ok := by
  refine wellFormed_foldl wellFormed_empty ?_
  intro out hout x hx
  exact wellFormed_insert law hout (hf x hx)

end TrieSet

/-! ### Maps -/

namespace TrieMap

variable {κ ν : Type} [BEq κ] [Hashed κ] [Hashed ν] {ok : κ → Prop} (law : LawfulOn ok)
  {m n : TrieMap κ ν}

theorem lawful_of_mem (hm : m.trie.WellFormed ok) {e : κ × ν} (he : e ∈ m.toList) : ok e.1 := by
  obtain ⟨p, hp, rfl⟩ := List.mem_map.mp he
  exact (hm.stored p hp).lawful

theorem wellFormed_empty : (empty : TrieMap κ ν).trie.WellFormed ok := Trie.wellFormed_empty

theorem wellFormed_foldl {β : Type} {f : TrieMap κ ν → β → TrieMap κ ν} {xs : List β}
    (hm : m.trie.WellFormed ok)
    (hf : ∀ out : TrieMap κ ν, out.trie.WellFormed ok → ∀ x ∈ xs, (f out x).trie.WellFormed ok) :
    (xs.foldl f m).trie.WellFormed ok :=
  List.foldlRecOn (motive := fun out : TrieMap κ ν => out.trie.WellFormed ok) xs f hm hf

theorem wellFormed_mark (hm : m.trie.WellFormed ok) (stamps : Stamps) :
    (⟨(stamps.mark m.trie).1⟩ : TrieMap κ ν).trie.WellFormed ok := hm.mark stamps

include law

theorem getEntry?_insert (hm : m.trie.WellFormed ok) {k k' : κ} (hk : ok k) (hk' : ok k') (v : ν) :
    getEntry? (m.insert k v) k' = if k' == k then some (k, v) else m.getEntry? k' :=
  hm.get?_insert law (show ok (Keyed.key (k, v)) from hk) hk'

theorem getEntry?_erase (hm : m.trie.WellFormed ok) {k k' : κ} (hk : ok k) (hk' : ok k') :
    getEntry? (m.erase k) k' = if k' == k then none else m.getEntry? k' :=
  hm.get?_remove law hk hk'

theorem exchange_snd (hm : m.trie.WellFormed ok) {k : κ} (hk : ok k) (v : ν) :
    (m.exchange k v).2 = m.get? k :=
  congrArg (Option.map Prod.snd) (hm.insert_snd law (show ok (Keyed.key (k, v)) from hk))

theorem extract_snd (hm : m.trie.WellFormed ok) {k : κ} (hk : ok k) :
    (m.extract k).2 = m.getEntry? k := hm.remove_snd law hk

theorem wellFormed_insert (hm : m.trie.WellFormed ok) {k : κ} (hk : ok k) (v : ν) :
    (m.insert k v).trie.WellFormed ok :=
  (hm.insert law (show ok (Keyed.key (k, v)) from hk)).1

theorem wellFormed_erase (hm : m.trie.WellFormed ok) {k : κ} (hk : ok k) :
    (m.erase k).trie.WellFormed ok := (hm.remove law hk).1

theorem wellFormed_insertMany (hm : m.trie.WellFormed ok) {es : List (κ × ν)}
    (hes : ∀ e ∈ es, ok e.1) : (m.insertMany es).trie.WellFormed ok := by
  refine wellFormed_foldl hm ?_
  intro out hout e he
  exact wellFormed_insert law hout (hes e he) e.2

theorem wellFormed_eraseMany (hm : m.trie.WellFormed ok) {ks : List κ} (hks : ∀ k ∈ ks, ok k) :
    (m.eraseMany ks).trie.WellFormed ok := by
  refine wellFormed_foldl hm ?_
  intro out hout k hk
  exact wellFormed_erase law hout (hks k hk)

theorem wellFormed_filter (hm : m.trie.WellFormed ok) (p : κ → ν → Bool) :
    (m.filter p).trie.WellFormed ok := Trie.WellFormed.filter law hm fun e => p e.1 e.2

theorem wellFormed_union (hm : m.trie.WellFormed ok) (hn : n.trie.WellFormed ok) :
    (m.union n).trie.WellFormed ok := MergeRule.union.wellFormed_merge law hm hn

theorem wellFormed_intersection (hm : m.trie.WellFormed ok) (hn : n.trie.WellFormed ok) :
    (m.intersection n).trie.WellFormed ok := MergeRule.intersection.wellFormed_merge law hm hn

theorem wellFormed_difference (hm : m.trie.WellFormed ok) (hn : n.trie.WellFormed ok) :
    (m.difference n).trie.WellFormed ok := MergeRule.difference.wellFormed_merge law hm hn

theorem wellFormed_symmetricDifference (hm : m.trie.WellFormed ok) (hn : n.trie.WellFormed ok) :
    (m.symmetricDifference n).trie.WellFormed ok :=
  MergeRule.symmetricDifference.wellFormed_merge law hm hn

theorem wellFormed_unions {ms : List (TrieMap κ ν)} (hms : ∀ m ∈ ms, m.trie.WellFormed ok) :
    (unions ms).trie.WellFormed ok := by
  refine wellFormed_foldl wellFormed_empty ?_
  intro out hout m hm
  exact wellFormed_union law hout (hms m hm)

/-- The image of any map, as far as its keys are lawful. -/
theorem wellFormed_mapValues {ω : Type} {f : κ → ω → ν} {u : TrieMap κ ω}
    (hu : ∀ e ∈ u.toList, ok e.1) : (u.mapValues f).trie.WellFormed ok := by
  refine wellFormed_foldl wellFormed_empty ?_
  intro out hout e he
  exact wellFormed_insert law hout (hu e he) _

/-- A restriction holds entries of the map, whichever way it is made. -/
theorem wellFormed_project (hm : m.trie.WellFormed ok) {ks : TrieSet κ}
    (hks : ∀ k ∈ ks.toList, ok k) : (m.project ks).trie.WellFormed ok := by
  unfold project
  split
  · refine wellFormed_foldl wellFormed_empty ?_
    intro out hout k hk
    split
    · exact hout
    · next e he =>
      obtain ⟨hash, hmem, -⟩ := (hm.get?_eq_some_iff law (hks k hk)).mp he
      exact wellFormed_insert law hout (hm.lawful _ hmem) e.2
  · exact wellFormed_filter law hm _

omit [Hashed ν] in
/-- The keys of any map, as far as they are lawful. -/
theorem wellFormed_keySet {u : TrieMap κ ν} (hu : ∀ e ∈ u.toList, ok e.1) :
    u.keySet.trie.WellFormed ok := by
  refine TrieSet.wellFormed_foldl TrieSet.wellFormed_empty ?_
  intro out hout e he
  exact TrieSet.wellFormed_insert law hout (hu e he)

end TrieMap

end TrieCollections
