/-
  TrieCollections/Proofs/CollectionLookups.lean
  =============================================
  **What is found after each operation.**  Sets and maps are known by their lookups, so for
  each operation there is one equation that says what a key finds in the result, from what
  it finds in the operands.  The entries found are the stored ones: a restriction or a merge
  hands on entries and makes none.

  Since `==` is decided by lookups too, equal arguments give equal results: an equation on
  lookups shows at once that an operation respects `==`.
-/
import TrieCollections.Proofs.Extensionality
import TrieCollections.Proofs.MergedEntries

namespace TrieCollections

/-! ### Sets -/

namespace TrieSet

variable {α : Type} [BEq α] [Hashed α] {ok : α → Prop} (law : LawfulOn ok) {s t : TrieSet α}

@[simp] theorem toList_unit (x : α) : (unit x).toList = [x] := by
  simp [unit, insert, exchange, Trie.insert, Trie.insertHashed, empty, Trie.empty, toList,
    Trie.entries]

@[simp] theorem contains_empty (x : α) : (empty : TrieSet α).contains x = false := rfl

include law

theorem get?_congr (hs : s.trie.WellFormed ok) {x y : α} (hx : ok x) (hy : ok y)
    (heq : (x == y) = true) : s.get? x = s.get? y := by
  rw [get?, get?, hs.get?_congr law hx hy heq]

theorem contains_congr (hs : s.trie.WellFormed ok) {x y : α} (hx : ok x) (hy : ok y)
    (heq : (x == y) = true) : s.contains x = s.contains y := by
  rw [contains, contains, get?_congr law hs hx hy heq]

/-- What a set contains is equal to one of its members. -/
theorem contains_iff_mem (hs : s.trie.WellFormed ok) {x : α} (hx : ok x) :
    s.contains x = true ↔ ∃ y ∈ s.toList, (x == y) = true := by
  rw [contains_eq, hs.isSome_get?_iff law hx]
  constructor
  · rintro ⟨p, hp, heq⟩
    exact ⟨p.1.value, List.mem_map_of_mem hp, heq⟩
  · rintro ⟨y, hy, heq⟩
    obtain ⟨p, hp, rfl⟩ := List.mem_map.mp hy
    exact ⟨p, hp, heq⟩

theorem contains_of_mem (hs : s.trie.WellFormed ok) {x : α} (hx : x ∈ s.toList) :
    s.contains x = true := by
  have hok := lawful_of_mem hs hx
  rw [contains_iff_mem law hs hok]
  exact ⟨x, hx, law.refl hok⟩

theorem any_toList (hs : s.trie.WellFormed ok) {x : α} (hx : ok x) :
    s.toList.any (x == ·) = s.contains x := by
  rw [Bool.eq_iff_iff, contains_iff_mem law hs hx, List.any_eq_true]

theorem contains_ofList {xs : List α} (hxs : ∀ x ∈ xs, ok x) {y : α} (hy : ok y) :
    (ofList xs).contains y = xs.any (y == ·) := by
  rw [ofList, contains_insertMany law wellFormed_empty hxs hy, contains_empty, Bool.or_false]

/-- What a set built from a list has for a member is one of the list: the very element, and not
    only an equal one. -/
theorem mem_of_mem_ofList {xs : List α} (hxs : ∀ x ∈ xs, ok x) {y : α}
    (hy : y ∈ (ofList xs).toList) : y ∈ xs := by
  -- insertions keep whatever holds of all members, so being one of the list is asked of them too
  have hlaw : LawfulOn fun z => ok z ∧ z ∈ xs := law.mono fun _ hz => hz.1
  have hwf := wellFormed_insertMany hlaw wellFormed_empty fun x hx => ⟨hxs x hx, hx⟩
  exact (lawful_of_mem hwf hy).2

theorem contains_merge (rule : MergeRule) (hs : s.trie.WellFormed ok) (ht : t.trie.WellFormed ok)
    {x : α} (hx : ok x) : (TrieSet.mk (rule.merge s.trie t.trie)).contains x =
      (rule.pick (s.trie.get? x) (t.trie.get? x)).isSome := by
  rw [contains_eq, rule.get?_merge law hs ht hx]

theorem contains_union (hs : s.trie.WellFormed ok) (ht : t.trie.WellFormed ok) {x : α}
    (hx : ok x) : (s.union t).contains x = (s.contains x || t.contains x) := by
  rw [union, contains_merge law _ hs ht hx, contains_eq, contains_eq]
  cases s.trie.get? x <;> cases t.trie.get? x <;> rfl

theorem contains_intersection (hs : s.trie.WellFormed ok) (ht : t.trie.WellFormed ok) {x : α}
    (hx : ok x) : (s.intersection t).contains x = (s.contains x && t.contains x) := by
  rw [intersection, contains_merge law _ hs ht hx, contains_eq, contains_eq]
  cases s.trie.get? x <;> cases t.trie.get? x <;> rfl

theorem contains_difference (hs : s.trie.WellFormed ok) (ht : t.trie.WellFormed ok) {x : α}
    (hx : ok x) : (s.difference t).contains x = (s.contains x && !t.contains x) := by
  rw [difference, contains_merge law _ hs ht hx, contains_eq, contains_eq]
  cases s.trie.get? x <;> cases t.trie.get? x <;> rfl

/-- A union of many sets contains what one of them contains. -/
theorem contains_unions {ss : List (TrieSet α)} (hss : ∀ s ∈ ss, s.trie.WellFormed ok) {x : α}
    (hx : ok x) : (unions ss).contains x = ss.any (·.contains x) := by
  induction ss using List.reverseRecOn with
  | nil => rfl
  | append_singleton ss s ih =>
    have hstart : ∀ t ∈ ss, t.trie.WellFormed ok := fun t ht => hss t (List.mem_append_left _ ht)
    have hlast := hss s (List.mem_append_right _ (List.mem_singleton_self s))
    have hconcat : unions (ss ++ [s]) = (unions ss).union s := List.foldl_concat ..
    rw [hconcat, contains_union law (wellFormed_unions law hstart) hlast hx, ih hstart,
      List.any_append, List.any_cons, List.any_nil, Bool.or_false]

theorem size_le_of_within (hs : s.trie.WellFormed ok) (ht : t.trie.WellFormed ok)
    (h : s.within t = true) : s.size ≤ t.size := by
  have hcover := (within_iff law hs ht).mp h
  rw [size, size, hs.size_eq, ht.size_eq]
  exact hcover.length_le law hs.stored ht.stored (hs.distinct law)

/-- The size that is compared first never decides against a subset. -/
theorem isSubset_eq_within (hs : s.trie.WellFormed ok) (ht : t.trie.WellFormed ok) :
    s.isSubset t = s.within t := by
  rw [Bool.eq_iff_iff, isSubset, Bool.and_eq_true, decide_eq_true_eq]
  constructor
  · exact fun h => h.2
  · exact fun h => ⟨size_le_of_within law hs ht h, h⟩

/-- A set is a subset of another one when all that it contains is contained there. -/
theorem isSubset_iff (hs : s.trie.WellFormed ok) (ht : t.trie.WellFormed ok) :
    s.isSubset t = true ↔ ∀ x, ok x → s.contains x = true → t.contains x = true := by
  simp only [contains_eq]
  rw [isSubset_eq_within law hs ht, within_iff law hs ht]
  constructor
  · intro hcover x hx hfound
    exact hs.found_of_covers law ht hcover hx hfound
  · intro hfound
    exact hs.covers_of_found law ht hfound

theorem insert_congr (hs : s.trie.WellFormed ok) (ht : t.trie.WellFormed ok) (h : (s == t) = true)
    {x y : α} (hx : ok x) (hy : ok y) (heq : (x == y) = true) :
    (s.insert x == t.insert y) = true := by
  rw [beq_iff_contains law hs ht] at h
  rw [beq_iff_contains law (wellFormed_insert law hs hx) (wellFormed_insert law ht hy)]
  intro z hz
  rw [contains_insert law hs hx hz, contains_insert law ht hy hz, h z hz, law.beq_comm hz hx,
    law.beq_congr hx hy hz heq, law.beq_comm hy hz]

theorem erase_congr (hs : s.trie.WellFormed ok) (ht : t.trie.WellFormed ok) (h : (s == t) = true)
    {x y : α} (hx : ok x) (hy : ok y) (heq : (x == y) = true) :
    (s.erase x == t.erase y) = true := by
  rw [beq_iff_contains law hs ht] at h
  rw [beq_iff_contains law (wellFormed_erase law hs hx) (wellFormed_erase law ht hy)]
  intro z hz
  rw [contains_erase law hs hx hz, contains_erase law ht hy hz, h z hz, law.beq_comm hz hx,
    law.beq_congr hx hy hz heq, law.beq_comm hy hz]

theorem insert_comm (hs : s.trie.WellFormed ok) {x y : α} (hx : ok x) (hy : ok y) :
    ((s.insert x).insert y == (s.insert y).insert x) = true := by
  have hsx := wellFormed_insert law hs hx
  have hsy := wellFormed_insert law hs hy
  rw [beq_iff_contains law (wellFormed_insert law hsx hy) (wellFormed_insert law hsy hx)]
  intro z hz
  rw [contains_insert law hsx hy hz, contains_insert law hs hx hz, contains_insert law hsy hx hz,
    contains_insert law hs hy hz, Bool.or_left_comm]

theorem unit_beq_unit {x y : α} (hx : ok x) (hy : ok y) :
    (unit x == unit y) = true ↔ (x == y) = true := by
  have hempty : (empty : TrieSet α).trie.WellFormed ok := wellFormed_empty
  have hwx := wellFormed_insert law hempty hx
  have hwy := wellFormed_insert law hempty hy
  constructor
  · intro h
    have hmem := (beq_iff_contains law hwx hwy).mp h x hx
    rwa [contains_insert law hempty hx hx, contains_insert law hempty hy hx, law.refl hx,
      contains_empty, Bool.or_false, Bool.or_false, eq_comm] at hmem
  · intro h
    exact insert_congr law hempty hempty ((TrieSet.lawfulOn law).refl hempty) hx hy h

end TrieSet

/-! ### Maps -/

namespace TrieMap

variable {κ ν : Type} [BEq κ] [Hashed κ] [Hashed ν] {ok : κ → Prop} {okValue : ν → Prop}
  (law : LawfulOn ok) {m m' n n' : TrieMap κ ν}

@[simp] theorem toList_unit (k : κ) (v : ν) : (unit k v).toList = [(k, v)] := by
  simp [unit, insert, exchange, Trie.insert, Trie.insertHashed, empty, Trie.empty, toList,
    Trie.entries]

@[simp] theorem get?_empty (k : κ) : (empty : TrieMap κ ν).get? k = none := rfl

include law

theorem get?_eq_some_iff_mem (hm : m.trie.WellFormed ok) {k : κ} (hk : ok k) {v : ν} :
    m.get? k = some v ↔ ∃ e ∈ m.toList, (k == e.1) = true ∧ e.2 = v := by
  rw [get?_eq_some_iff law hm hk, toList]
  simp only [List.mem_map, exists_exists_and_eq_and]

theorem get?_of_mem_toList (hm : m.trie.WellFormed ok) {e : κ × ν} (he : e ∈ m.toList) :
    m.get? e.1 = some e.2 := by
  have hk := lawful_of_mem hm he
  rw [get?_eq_some_iff_mem law hm hk]
  exact ⟨e, he, law.refl hk, rfl⟩

/-- Under equal keys a map lists one value. -/
theorem value_eq_of_mem (hm : m.trie.WellFormed ok) {e f : κ × ν} (he : e ∈ m.toList)
    (hf : f ∈ m.toList) (heq : (e.1 == f.1) = true) : e.2 = f.2 := by
  have hke := lawful_of_mem hm he
  have hget := hm.get?_congr law hke (lawful_of_mem hm hf) heq
  have hsome : m.get? e.1 = m.get? f.1 := congrArg (Option.map Prod.snd) hget
  rw [get?_of_mem_toList law hm he, get?_of_mem_toList law hm hf] at hsome
  exact Option.some.inj hsome

/-- Of two entries of a map the keys differ. -/
theorem pairwise_toList (hm : m.trie.WellFormed ok) :
    m.toList.Pairwise fun e f => (e.1 == f.1) = false := by
  rw [toList, List.pairwise_map]
  exact (hm.distinct law).imp fun h => h.1

theorem getD_of_mem (hm : m.trie.WellFormed ok) {e : κ × ν} (he : e ∈ m.toList) (default : ν) :
    m.getD e.1 default = e.2 := by
  rw [getD, get?_of_mem_toList law hm he]
  rfl

theorem getEntry?_congr (hm : m.trie.WellFormed ok) {k l : κ} (hk : ok k) (hl : ok l)
    (heq : (k == l) = true) : m.getEntry? k = m.getEntry? l := hm.get?_congr law hk hl heq

theorem get?_congr (hm : m.trie.WellFormed ok) {k l : κ} (hk : ok k) (hl : ok l)
    (heq : (k == l) = true) : m.get? k = m.get? l := by
  rw [get?, get?, getEntry?_congr law hm hk hl heq]

theorem getD_congr (hm : m.trie.WellFormed ok) {k l : κ} (hk : ok k) (hl : ok l)
    (heq : (k == l) = true) (default : ν) : m.getD k default = m.getD l default := by
  rw [getD, getD, get?_congr law hm hk hl heq]

theorem get?_insert (hm : m.trie.WellFormed ok) {k l : κ} (hk : ok k) (hl : ok l) (v : ν) :
    (m.insert k v).get? l = if l == k then some v else m.get? l := by
  rw [get?, getEntry?_insert law hm hk hl]
  split <;> rfl

theorem contains_insert (hm : m.trie.WellFormed ok) {k l : κ} (hk : ok k) (hl : ok l) (v : ν) :
    (m.insert k v).contains l = (l == k || m.contains l) := by
  rw [contains, get?_insert law hm hk hl, contains]
  cases l == k <;> rfl

theorem getD_insert (hm : m.trie.WellFormed ok) {k l : κ} (hk : ok k) (hl : ok l) (v default : ν) :
    (m.insert k v).getD l default = if l == k then v else m.getD l default := by
  rw [getD, get?_insert law hm hk hl]
  split <;> rfl

theorem get?_erase (hm : m.trie.WellFormed ok) {k l : κ} (hk : ok k) (hl : ok l) :
    (m.erase k).get? l = if l == k then none else m.get? l := by
  rw [get?, getEntry?_erase law hm hk hl]
  split <;> rfl

theorem get?_unit {k l : κ} (hk : ok k) (hl : ok l) (v : ν) :
    (unit k v).get? l = if l == k then some v else none :=
  get?_insert law wellFormed_empty hk hl v

theorem contains_erase (hm : m.trie.WellFormed ok) {k l : κ} (hk : ok k) (hl : ok l) :
    (m.erase k).contains l = (!(l == k) && m.contains l) := by
  rw [contains, get?_erase law hm hk hl, contains]
  cases l == k <;> rfl

/-- Of the entries put in under equal keys the last one counts. -/
theorem get?_insertMany (hm : m.trie.WellFormed ok) {es : List (κ × ν)} (hes : ∀ e ∈ es, ok e.1)
    {k : κ} (hk : ok k) :
    (m.insertMany es).get? k = ((es.reverse.find? (k == ·.1)).map (·.2)).or (m.get? k) := by
  induction es generalizing m with
  | nil => rfl
  | cons e es ih =>
    have he := hes e List.mem_cons_self
    show ((m.insert e.1 e.2).insertMany es).get? k = _
    rw [ih (wellFormed_insert law hm he e.2) fun f hf => hes f (List.mem_cons_of_mem _ hf),
      get?_insert law hm he hk, List.reverse_cons, List.find?_append, List.find?_singleton]
    cases es.reverse.find? (k == ·.1) <;> cases k == e.1 <;> rfl

theorem get?_ofList {es : List (κ × ν)} (hes : ∀ e ∈ es, ok e.1) {k : κ} (hk : ok k) :
    (ofList es).get? k = (es.reverse.find? (k == ·.1)).map (·.2) := by
  rw [ofList, get?_insertMany law wellFormed_empty hes hk, get?_empty, Option.or_none]

theorem contains_ofList {es : List (κ × ν)} (hes : ∀ e ∈ es, ok e.1) {k : κ} (hk : ok k) :
    (ofList es).contains k = (es.map Prod.fst).any (k == ·) := by
  have hany : (es.reverse.find? (k == ·.1)).isSome = es.any (k == ·.1) := by
    rw [Bool.eq_iff_iff, List.find?_isSome, ← List.any_eq_true, List.any_reverse]
  rw [contains, get?_ofList law hes hk, Option.isSome_map, List.any_map]
  exact hany

theorem get?_eraseMany (hm : m.trie.WellFormed ok) {ks : List κ} (hks : ∀ l ∈ ks, ok l) {k : κ}
    (hk : ok k) : (m.eraseMany ks).get? k = if ks.any (k == ·) then none else m.get? k := by
  induction ks generalizing m with
  | nil => rfl
  | cons l ks ih =>
    have hl := hks l List.mem_cons_self
    show ((m.erase l).eraseMany ks).get? k = _
    rw [ih (wellFormed_erase law hm hl) fun l' hl' => hks l' (List.mem_cons_of_mem _ hl'),
      get?_erase law hm hl hk, List.any_cons]
    cases k == l <;> simp

theorem getEntry?_filter (hm : m.trie.WellFormed ok) (p : κ → ν → Bool) {k : κ} (hk : ok k) :
    getEntry? (m.filter p) k = (m.getEntry? k).filter fun e => p e.1 e.2 :=
  hm.get?_filter law (fun e => p e.1 e.2) hk

theorem getEntry?_update (hm : m.trie.WellFormed ok) (hn : n.trie.WellFormed ok) {k : κ}
    (hk : ok k) : getEntry? (m.update n) k = (n.getEntry? k).or (m.getEntry? k) := by
  have hmerged := MergeRule.union.get?_merge law hm hn hk
  unfold update union getEntry?
  rw [hmerged]
  cases m.trie.get? k <;> cases n.trie.get? k <;> rfl

/-- An update finds what the second map finds, and otherwise what the first one does. -/
theorem get?_update (hm : m.trie.WellFormed ok) (hn : n.trie.WellFormed ok) {k : κ} (hk : ok k) :
    (m.update n).get? k = (n.get? k).or (m.get? k) := by
  rw [get?, getEntry?_update law hm hn hk, Option.map_or]
  rfl

theorem contains_update (hm : m.trie.WellFormed ok) (hn : n.trie.WellFormed ok) {k : κ}
    (hk : ok k) : (m.update n).contains k = (m.contains k || n.contains k) := by
  rw [contains, get?_update law hm hn hk, contains, contains, Option.isSome_or, Bool.or_comm]

theorem wellFormed_update (hm : m.trie.WellFormed ok) (hn : n.trie.WellFormed ok) :
    (m.update n).trie.WellFormed ok := wellFormed_union law hm hn

/-! ### Restrictions -/

/-- Picking the entries under some keys out of a map, one key after the other. -/
theorem getEntry?_foldl_pick (hm : m.trie.WellFormed ok) {ks : List κ} (hks : ∀ k ∈ ks, ok k) :
    let picked := ks.foldl (fun (out : TrieMap κ ν) k =>
      match m.getEntry? k with
      | none => out
      | some e => out.insert e.1 e.2) empty
    picked.trie.WellFormed ok ∧ ∀ l, ok l →
      picked.getEntry? l = if ks.any (l == ·) then m.getEntry? l else none := by
  induction ks using List.reverseRecOn with
  | nil => exact ⟨wellFormed_empty, fun l _ => rfl⟩
  | append_singleton ks k ih =>
    obtain ⟨hwf, hget⟩ := ih fun l hl => hks l (List.mem_append_left _ hl)
    have hk := hks k (List.mem_append_right _ (List.mem_singleton_self k))
    simp only [List.foldl_append, List.foldl_cons, List.foldl_nil, List.any_append, List.any_cons,
      List.any_nil, Bool.or_false]
    generalize List.foldl _ empty ks = picked at hwf hget ⊢
    rcases he : m.getEntry? k with _ | e
    · refine ⟨hwf, ?_⟩
      intro l hl
      rw [hget l hl]
      by_cases hlk : (l == k) = true
      · simp [hlk, getEntry?_congr law hm hl hk hlk, he]
      · simp [hlk]
    · obtain ⟨hash, hmem, hkey⟩ := (hm.get?_eq_some_iff law hk).mp he
      have hek : ok e.1 := hm.lawful _ hmem
      refine ⟨wellFormed_insert law hwf hek e.2, ?_⟩
      intro l hl
      have hsame : (l == e.1) = (l == k) := by
        rw [law.beq_comm hl hek, law.beq_comm hl hk]
        exact (law.beq_congr hk hek hl hkey).symm
      rw [getEntry?_insert law hwf hek hl, hsame, hget l hl]
      by_cases hlk : (l == k) = true
      · simp [hlk, getEntry?_congr law hm hl hk hlk, he]
      · simp [hlk]

omit law in
/-- The restriction by looking up the keys of the set, one after the other. -/
def pickEach (m : TrieMap κ ν) (ks : TrieSet κ) : TrieMap κ ν :=
  ks.fold (fun out k =>
    match m.getEntry? k with
    | none => out
    | some e => out.insert e.1 e.2) empty

omit law in
/-- The restriction by looking for the keys of the map in the set. -/
def keepIn (m : TrieMap κ ν) (ks : TrieSet κ) : TrieMap κ ν := m.filter fun k _ => ks.contains k

omit law in
theorem project_eq (m : TrieMap κ ν) (ks : TrieSet κ) :
    m.project ks = if ks.size < m.size then m.pickEach ks else m.keepIn ks := rfl

section Restricted

variable (hm : m.trie.WellFormed ok) {ks : TrieSet κ} (hks : ks.trie.WellFormed ok) {k : κ}
  (hk : ok k)

include hm hks

theorem wellFormed_pickEach : (m.pickEach ks).trie.WellFormed ok :=
  (getEntry?_foldl_pick law hm fun _ hl => TrieSet.lawful_of_mem hks hl).1

include hk

theorem getEntry?_pickEach :
    getEntry? (m.pickEach ks) k = if ks.contains k then m.getEntry? k else none := by
  have hpicked := (getEntry?_foldl_pick law hm fun l hl => TrieSet.lawful_of_mem hks hl).2 k hk
  rw [TrieSet.any_toList law hks hk] at hpicked
  exact hpicked

theorem getEntry?_keepIn :
    getEntry? (m.keepIn ks) k = if ks.contains k then m.getEntry? k else none := by
  rw [keepIn, getEntry?_filter law hm _ hk]
  rcases he : m.getEntry? k with _ | e
  · simp
  · -- the set is asked for the stored key, which equals the sought one
    obtain ⟨hash, hmem, hkey⟩ := (hm.get?_eq_some_iff law hk).mp he
    have hek : ok e.1 := hm.lawful _ hmem
    rw [TrieSet.contains_congr law hks hk hek hkey]
    cases hc : ks.contains e.1 <;> simp [hc]

/-- **A restriction finds what the map finds, under the keys of the set only.** -/
theorem getEntry?_project :
    getEntry? (m.project ks) k = if ks.contains k then m.getEntry? k else none := by
  rw [project_eq]
  split
  · exact getEntry?_pickEach law hm hks hk
  · exact getEntry?_keepIn law hm hks hk

end Restricted

theorem get?_project (hm : m.trie.WellFormed ok) {ks : TrieSet κ} (hks : ks.trie.WellFormed ok)
    {k : κ} (hk : ok k) : (m.project ks).get? k = if ks.contains k then m.get? k else none := by
  rw [get?, getEntry?_project law hm hks hk]
  split <;> rfl

theorem contains_project (hm : m.trie.WellFormed ok) {ks : TrieSet κ}
    (hks : ks.trie.WellFormed ok) {k : κ} (hk : ok k) :
    (m.project ks).contains k = (ks.contains k && m.contains k) := by
  rw [contains, get?_project law hm hks hk, contains]
  cases ks.contains k <;> rfl

theorem keySet_wellFormed (hm : m.trie.WellFormed ok) : m.keySet.trie.WellFormed ok :=
  wellFormed_keySet law fun _ he => lawful_of_mem hm he

theorem contains_keySet (hm : m.trie.WellFormed ok) {k : κ} (hk : ok k) :
    m.keySet.contains k = m.contains k := by
  have hkeys : m.keySet = TrieSet.ofList m.keys := by
    rw [keySet, fold, TrieSet.ofList, TrieSet.insertMany, keys, List.foldl_map]
  have hok : ∀ l ∈ m.keys, ok l := by
    intro l hl
    obtain ⟨e, he, rfl⟩ := List.mem_map.mp hl
    exact lawful_of_mem hm he
  rw [hkeys, TrieSet.contains_ofList law hok hk, contains_eq, Bool.eq_iff_iff,
    hm.isSome_get?_iff law hk, List.any_eq_true]
  constructor
  · rintro ⟨l, hl, heq⟩
    obtain ⟨e, he, rfl⟩ := List.mem_map.mp hl
    obtain ⟨p, hp, rfl⟩ := List.mem_map.mp he
    exact ⟨p, hp, heq⟩
  · rintro ⟨p, hp, heq⟩
    exact ⟨p.1.1, List.mem_map_of_mem (List.mem_map_of_mem hp), heq⟩

theorem keySet_beq_iff (hm : m.trie.WellFormed ok) (hn : n.trie.WellFormed ok) :
    (m.keySet == n.keySet) = true ↔ ∀ k, ok k → m.contains k = n.contains k := by
  rw [TrieSet.beq_iff_contains law (keySet_wellFormed law hm) (keySet_wellFormed law hn)]
  refine forall₂_congr fun k hk => ?_
  rw [contains_keySet law hm hk, contains_keySet law hn hk]

/-! ### Values -/

namespace WellFormed

theorem of_get? (hm : m.trie.WellFormed ok)
    (h : ∀ k v, ok k → m.get? k = some v → okValue v) : m.WellFormed ok okValue := by
  refine ⟨hm, ?_⟩
  intro e he
  obtain ⟨p, hp, rfl⟩ := List.mem_map.mp he
  have hk : ok p.1.1 := hm.lawful p hp
  exact h p.1.1 p.1.2 hk (get?_of_mem law hm hp hk (law.refl hk))

omit law in
theorem empty : (TrieMap.empty : TrieMap κ ν).WellFormed ok okValue :=
  ⟨wellFormed_empty, List.forall_mem_nil _⟩

variable (hm : m.WellFormed ok okValue)

include hm

theorem insert {k : κ} (hk : ok k) {v : ν} (hv : okValue v) :
    (m.insert k v).WellFormed ok okValue := by
  apply of_get? law (wellFormed_insert law hm.trie hk v)
  intro l w hl hw
  rw [get?_insert law hm.trie hk hl] at hw
  split at hw
  · obtain rfl := Option.some.inj hw
    exact hv
  · exact hm.okValue_of_get? law hl hw

theorem erase {k : κ} (hk : ok k) : (m.erase k).WellFormed ok okValue := by
  apply of_get? law (wellFormed_erase law hm.trie hk)
  intro l w hl hw
  rw [get?_erase law hm.trie hk hl] at hw
  split at hw
  · cases hw
  · exact hm.okValue_of_get? law hl hw

theorem eraseMany {ks : List κ} (hks : ∀ k ∈ ks, ok k) :
    (m.eraseMany ks).WellFormed ok okValue :=
  List.foldlRecOn (motive := fun out : TrieMap κ ν => out.WellFormed ok okValue) ks _ hm
    fun _ hout k hk => hout.erase law (hks k hk)

theorem insertMany {es : List (κ × ν)} (hes : ∀ e ∈ es, ok e.1 ∧ okValue e.2) :
    (m.insertMany es).WellFormed ok okValue :=
  List.foldlRecOn (motive := fun out : TrieMap κ ν => out.WellFormed ok okValue) es _ hm
    fun _ hout e he => hout.insert law (hes e he).1 (hes e he).2

theorem update (hn : n.WellFormed ok okValue) : (m.update n).WellFormed ok okValue := by
  apply of_get? law (wellFormed_update law hm.trie hn.trie)
  intro k v hk hv
  rw [get?_update law hm.trie hn.trie hk, Option.or_eq_some_iff] at hv
  rcases hv with hv | ⟨-, hv⟩
  · exact hn.okValue_of_get? law hk hv
  · exact hm.okValue_of_get? law hk hv

theorem project {ks : TrieSet κ} (hks : ks.trie.WellFormed ok) :
    (m.project ks).WellFormed ok okValue := by
  apply of_get? law (wellFormed_project law hm.trie fun k hk => TrieSet.lawful_of_mem hks hk)
  intro k v hk hv
  rw [get?_project law hm.trie hks hk] at hv
  split at hv
  · exact hm.okValue_of_get? law hk hv
  · cases hv

theorem getD {k : κ} (hk : ok k) {v : ν} (hv : okValue v) : okValue (m.getD k v) := by
  rw [TrieMap.getD]
  rcases hget : m.get? k with _ | w
  · exact hv
  · exact hm.okValue_of_get? law hk hget

end WellFormed

omit law in
/-- The map came about by operations, and its values satisfy a predicate. -/
structure ReachableWith (ok : κ → Prop) (okValue : ν → Prop) (m : TrieMap κ ν) : Prop where
  history : m.Reachable ok
  values : ∀ e ∈ m.toList, okValue e.2

namespace ReachableWith

omit law in
theorem empty : (TrieMap.empty : TrieMap κ ν).ReachableWith ok okValue :=
  ⟨.empty, List.forall_mem_nil _⟩

section Edits

variable (hm : m.ReachableWith ok okValue)

include hm

theorem wellFormed : m.WellFormed ok okValue := ⟨hm.history.wellFormed law, hm.values⟩

theorem insert {k : κ} (hk : ok k) {v : ν} (hv : okValue v) :
    (m.insert k v).ReachableWith ok okValue :=
  ⟨hm.history.insert hk v, ((hm.wellFormed law).insert law hk hv).values⟩

theorem erase {k : κ} (hk : ok k) : (m.erase k).ReachableWith ok okValue :=
  ⟨hm.history.erase hk, ((hm.wellFormed law).erase law hk).values⟩

theorem eraseMany {ks : List κ} (hks : ∀ k ∈ ks, ok k) :
    (m.eraseMany ks).ReachableWith ok okValue :=
  ⟨hm.history.eraseMany hks, ((hm.wellFormed law).eraseMany law hks).values⟩

theorem insertMany {es : List (κ × ν)} (hes : ∀ e ∈ es, ok e.1 ∧ okValue e.2) :
    (m.insertMany es).ReachableWith ok okValue :=
  ⟨hm.history.insertMany fun e he => (hes e he).1,
    ((hm.wellFormed law).insertMany law hes).values⟩

theorem update (hn : n.ReachableWith ok okValue) : (m.update n).ReachableWith ok okValue :=
  ⟨hm.history.union hn.history, ((hm.wellFormed law).update law (hn.wellFormed law)).values⟩

theorem project {ks : TrieSet κ} (hks : ks.trie.WellFormed ok) :
    (m.project ks).ReachableWith ok okValue :=
  ⟨hm.history.project fun _ hk => TrieSet.lawful_of_mem hks hk,
    ((hm.wellFormed law).project law hks).values⟩

end Edits

theorem unit {k : κ} (hk : ok k) {v : ν} (hv : okValue v) :
    (TrieMap.unit k v).ReachableWith ok okValue :=
  empty.insert law hk hv

theorem ofList {es : List (κ × ν)} (hes : ∀ e ∈ es, ok e.1 ∧ okValue e.2) :
    (TrieMap.ofList es).ReachableWith ok okValue :=
  empty.insertMany law hes

end ReachableWith

theorem lawfulOn_reachableWith [BEq ν] (lawValue : LawfulOn okValue) :
    LawfulOn fun m : TrieMap κ ν => m.ReachableWith ok okValue :=
  (TrieMap.lawfulOn law lawValue).mono fun _ hm => hm.wellFormed law

/-! ### Equal maps -/

theorem beq_of_get?_eq [BEq ν] (lawValue : LawfulOn okValue) (hm : m.WellFormed ok okValue)
    (hn : n.WellFormed ok okValue) (h : ∀ k, ok k → m.get? k = n.get? k) : (m == n) = true := by
  rw [beq_iff_agree law hm hn lawValue]
  intro k hk
  rw [← h k hk]
  rcases hv : m.get? k with _ | v
  · exact .none
  · exact .some (lawValue.refl (hm.okValue_of_get? law hk hv))

theorem contains_eq_of_beq [BEq ν] (lawValue : LawfulOn okValue) (hm : m.WellFormed ok okValue)
    (hn : n.WellFormed ok okValue) (h : (m == n) = true) {k : κ} (hk : ok k) :
    m.contains k = n.contains k := by
  have hrel := (beq_iff_agree law hm hn lawValue).mp h k hk
  rw [contains, contains]
  generalize m.get? k = v, n.get? k = w at hrel
  cases hrel <;> rfl

/-- Where equal values are the same, equal maps have the same under every key. -/
theorem get?_eq_of_beq [BEq ν] [LawfulBEq ν] (lawValue : LawfulOn okValue)
    (hm : m.WellFormed ok okValue) (hn : n.WellFormed ok okValue) (h : (m == n) = true) {k : κ}
    (hk : ok k) : m.get? k = n.get? k := by
  have hrel := (beq_iff_agree law hm hn lawValue).mp h k hk
  generalize m.get? k = v, n.get? k = w at hrel
  cases hrel with
  | none => rfl
  | some heq => rw [eq_of_beq heq]

section Rewritten

variable [BEq ν] (lawValue : LawfulOn okValue) (hm : m.WellFormed ok okValue) {k : κ} (hk : ok k)

include lawValue hm hk

theorem erase_beq_of_lacks (hlacks : m.contains k = false) : (m.erase k == m) = true := by
  have hnone : m.get? k = none := by simpa [contains] using hlacks
  apply beq_of_get?_eq law lawValue (hm.erase law hk) hm
  intro l hl
  rw [get?_erase law hm.trie hk hl]
  split
  · next heq => rw [get?_congr law hm.trie hl hk heq, hnone]
  · rfl

/-- What is written under a key is gone when the key is taken away. -/
theorem erase_insert_beq {v : ν} (hv : okValue v) :
    ((m.insert k v).erase k == m.erase k) = true := by
  have hwritten := hm.insert law hk hv
  apply beq_of_get?_eq law lawValue (hwritten.erase law hk) (hm.erase law hk)
  intro l hl
  rw [get?_erase law hwritten.trie hk hl, get?_erase law hm.trie hk hl,
    get?_insert law hm.trie hk hl]
  split <;> rfl

/-- What was there before does not matter to what is written. -/
theorem insert_erase_beq {v : ν} (hv : okValue v) :
    ((m.erase k).insert k v == m.insert k v) = true := by
  have herased := hm.erase law hk
  apply beq_of_get?_eq law lawValue (herased.insert law hk hv) (hm.insert law hk hv)
  intro l hl
  rw [get?_insert law herased.trie hk hl, get?_insert law hm.trie hk hl,
    get?_erase law hm.trie hk hl]
  split <;> rfl

end Rewritten

section Equal

variable [BEq ν] (lawValue : LawfulOn okValue) (hm : m.WellFormed ok okValue)
  (hm' : m'.WellFormed ok okValue) (h : (m == m') = true)

include lawValue hm hm' h

theorem insert_congr {k k' : κ} (hk : ok k) (hk' : ok k') (heq : (k == k') = true) {v v' : ν}
    (hv : okValue v) (hv' : okValue v') (hvalue : (v == v') = true) :
    (m.insert k v == m'.insert k' v') = true := by
  rw [beq_iff_agree law hm hm' lawValue] at h
  rw [beq_iff_agree law (hm.insert law hk hv) (hm'.insert law hk' hv') lawValue]
  intro l hl
  have hkeys : (l == k) = (l == k') := by
    rw [law.beq_comm hl hk, law.beq_comm hl hk', law.beq_congr hk hk' hl heq]
  rw [get?_insert law hm.trie hk hl, get?_insert law hm'.trie hk' hl, hkeys]
  split
  · exact .some hvalue
  · exact h l hl

theorem erase_congr {k k' : κ} (hk : ok k) (hk' : ok k') (heq : (k == k') = true) :
    (m.erase k == m'.erase k') = true := by
  rw [beq_iff_agree law hm hm' lawValue] at h
  rw [beq_iff_agree law (hm.erase law hk) (hm'.erase law hk') lawValue]
  intro l hl
  have hkeys : (l == k) = (l == k') := by
    rw [law.beq_comm hl hk, law.beq_comm hl hk', law.beq_congr hk hk' hl heq]
  rw [get?_erase law hm.trie hk hl, get?_erase law hm'.trie hk' hl, hkeys]
  split
  · exact .none
  · exact h l hl

theorem update_congr (hn : n.WellFormed ok okValue) (hn' : n'.WellFormed ok okValue)
    (h' : (n == n') = true) : (m.update n == m'.update n') = true := by
  rw [beq_iff_agree law hm hm' lawValue] at h
  rw [beq_iff_agree law hn hn' lawValue] at h'
  rw [beq_iff_agree law (hm.update law hn) (hm'.update law hn') lawValue]
  intro k hk
  have hrel := h k hk
  have hrel' := h' k hk
  rw [get?_update law hm.trie hn.trie hk, get?_update law hm'.trie hn'.trie hk]
  generalize n.get? k = w, n'.get? k = w' at hrel'
  cases hrel' with
  | none => simpa only [Option.none_or] using hrel
  | some hvalue => exact .some hvalue

end Equal

end TrieMap

end TrieCollections
