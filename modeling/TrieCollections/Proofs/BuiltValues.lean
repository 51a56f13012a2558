/-
  TrieCollections/Proofs/BuiltValues.lean
  =======================================
  **Values are lawful keys, however deeply they are nested.**  A value is *built* when the
  collections in it came about by operations on built values (`Value.Built`): any edits in
  any order, entries that were thrown out again included.

  Whether `==` is an equivalence on values depends on the collections inside, and these are
  in order only if `==` is lawful on what they hold.  The knot is untied by looking at the
  value as it is and not at its history.  A value is *sound* when every trie in it is
  well-formed (`Value.Sound`), and what is inside a sound value is sound and smaller:

    * on sound values below a given size `==` is an equivalence, by induction on the size:
      sets and maps of lawful keys are lawful (`lawfulOn_below`);
    * equal values consist of the same words, whether sound or not, since the comparison of
      two collections compares their words (`words_eq_of_beq`);
    * so `==` is lawful on all sound values, and by this law the operations keep sets and
      maps of sound values well-formed.  By induction on how it was built, every built value
      is sound (`Built.sound`).

  Equality of built values therefore goes by what they hold at every depth
  (`beq_set_iff_contains`, `beq_map_iff_agree`, `beq_relation_iff_contains`).
-/
import TrieCollections.Proofs.CollectionLookups
import TrieCollections.Value.Equality

namespace TrieCollections

/-! ### Lists -/

section Lists

variable {α : Type} [BEq α] [Hashed α] {ok : α → Prop} (law : LawfulOn ok)

theorem words_eq_of_beq_list {xs ys : List α} (h : (xs == ys) = true)
    (hwords : ∀ x ∈ xs, ∀ y, (x == y) = true → Hashed.words x = Hashed.words y) :
    Hashed.words xs = Hashed.words ys := by
  have hboth : xs.length = ys.length ∧ xs.flatMap Hashed.words = ys.flatMap Hashed.words := by
    induction xs generalizing ys with
    | nil =>
      cases ys with
      | nil => exact ⟨rfl, rfl⟩
      | cons y ys => cases h
    | cons x xs ih =>
      cases ys with
      | nil => cases h
      | cons y ys =>
        rw [List.cons_beq_cons, Bool.and_eq_true] at h
        obtain ⟨hlength, htail⟩ := ih h.2 fun x hx => hwords x (List.mem_cons_of_mem _ hx)
        have hhead := hwords x List.mem_cons_self y h.1
        simp [hlength, htail, hhead]
  simp [Hashed.words, hboth]

include law

theorem beq_list_refl {xs : List α} (hxs : ∀ x ∈ xs, ok x) : (xs == xs) = true := by
  induction xs with
  | nil => rfl
  | cons x xs ih =>
    rw [List.cons_beq_cons, law.refl (hxs x List.mem_cons_self),
      ih fun y hy => hxs y (List.mem_cons_of_mem _ hy)]
    rfl

theorem beq_list_symm {xs ys : List α} (hxs : ∀ x ∈ xs, ok x) (hys : ∀ y ∈ ys, ok y)
    (h : (xs == ys) = true) : (ys == xs) = true := by
  induction xs generalizing ys with
  | nil =>
    cases ys with
    | nil => rfl
    | cons y ys => cases h
  | cons x xs ih =>
    cases ys with
    | nil => cases h
    | cons y ys =>
      simp only [List.forall_mem_cons] at hxs hys
      rw [List.cons_beq_cons, Bool.and_eq_true] at h ⊢
      exact ⟨law.symm hxs.1 hys.1 h.1, ih hxs.2 hys.2 h.2⟩

theorem beq_list_trans {xs ys zs : List α} (hxs : ∀ x ∈ xs, ok x) (hys : ∀ y ∈ ys, ok y)
    (hzs : ∀ z ∈ zs, ok z) (h : (xs == ys) = true) (h' : (ys == zs) = true) :
    (xs == zs) = true := by
  induction xs generalizing ys zs with
  | nil =>
    cases ys with
    | nil => exact h'
    | cons y ys => cases h
  | cons x xs ih =>
    cases ys with
    | nil => cases h
    | cons y ys =>
      cases zs with
      | nil => cases h'
      | cons z zs =>
        simp only [List.forall_mem_cons] at hxs hys hzs
        rw [List.cons_beq_cons, Bool.and_eq_true] at h h' ⊢
        exact ⟨law.trans hxs.1 hys.1 hzs.1 h.1 h'.1, ih hxs.2 hys.2 hzs.2 h.2 h'.2⟩

end Lists

/-! ### Sizes -/

theorem TrieSet.sizeOf_lt_of_mem {α : Type} [SizeOf α] {s : TrieSet α} {x : α}
    (h : x ∈ s.toList) : sizeOf x < sizeOf s := by
  obtain ⟨⟨⟨x⟩, hash⟩, hp, rfl⟩ := List.mem_map.mp h
  have hlt := Trie.sizeOf_entry_lt hp
  cases s
  simp only [Member.mk.sizeOf_spec, TrieSet.mk.sizeOf_spec] at *
  omega

theorem TrieMap.sizeOf_lt_of_mem {κ ν : Type} [SizeOf κ] [SizeOf ν] {m : TrieMap κ ν} {e : κ × ν}
    (h : e ∈ m.toList) : sizeOf e.1 < sizeOf m ∧ sizeOf e.2 < sizeOf m := by
  obtain ⟨⟨⟨k, v⟩, hash⟩, hp, rfl⟩ := List.mem_map.mp h
  have hlt := Trie.sizeOf_entry_lt hp
  cases m
  simp only [Prod.mk.sizeOf_spec, TrieMap.mk.sizeOf_spec] at *
  omega

namespace Value

/-! ### Equal values side by side -/

/-- The two values are of one kind and hold equal things. -/
inductive Alike : Value → Value → Prop
  | bool (b : Bool) : Alike (bool b) (bool b)
  | int (i : Int64) : Alike (int i) (int i)
  | float (x : FloatKey) : Alike (float x) (float x)
  | complex (re im : FloatKey) : Alike (complex re im) (complex re im)
  | str (s : String) : Alike (str s) (str s)
  | array {xs ys : List Value} (h : (xs == ys) = true) : Alike (array xs) (array ys)
  | set {s t : TrieSet Value} (h : (s == t) = true) : Alike (set s) (set t)
  | map {m n : TrieMap Value Value} (h : (m == n) = true) : Alike (map m) (map n)
  | relation {r q : Relation String Value} (h : (r == q) = true) :
      Alike (relation r) (relation q)

theorem beq_iff_alike {x y : Value} : (x == y) = true ↔ Alike x y := by
  constructor
  · intro h
    cases x <;> cases y <;> simp only [beq_eq, beq, Bool.false_eq_true] at h
    case bool.bool => rw [eq_of_beq h]; exact .bool _
    case int.int => rw [eq_of_beq h]; exact .int _
    case float.float => rw [eq_of_beq h]; exact .float _
    case complex.complex =>
      rw [Bool.and_eq_true] at h
      rw [eq_of_beq h.1, eq_of_beq h.2]
      exact .complex _ _
    case str.str => rw [eq_of_beq h]; exact .str _
    case array.array xs ys => exact .array (by rw [← beq_array, beq_eq, beq]; exact h)
    case set.set s t => exact .set (by rw [← beq_set, beq_eq, beq]; exact h)
    case map.map m n => exact .map (by rw [← beq_map, beq_eq, beq]; exact h)
    case relation.relation r q => exact .relation (by rw [← beq_relation, beq_eq, beq]; exact h)
  · intro h
    cases h with
    | bool b => simp [beq_eq, beq]
    | int i => simp [beq_eq, beq]
    | float x => simp [beq_eq, beq]
    | complex re im => simp [beq_eq, beq]
    | str s => simp [beq_eq, beq]
    | array h => rw [beq_array]; exact h
    | set h => rw [beq_set]; exact h
    | map h => rw [beq_map]; exact h
    | relation h => rw [beq_relation]; exact h

/-- **Equal values consist of the same words.** -/
theorem words_eq_of_beq (x y : Value) (h : (x == y) = true) : Hashed.words x = Hashed.words y := by
  cases beq_iff_alike.mp h with
  | bool b => rfl
  | int i => rfl
  | float x => rfl
  | complex re im => rfl
  | str s => rfl
  | @array xs ys heq =>
    rw [words_eq, words_eq, contentWords_array, contentWords_array,
      words_eq_of_beq_list heq fun x hx y hxy => words_eq_of_beq x y hxy]
    rfl
  | @set s t heq =>
    rw [words_eq, words_eq, contentWords, contentWords, TrieSet.words_eq_of_beq heq]
    rfl
  | @map m n heq =>
    rw [words_eq, words_eq, contentWords, contentWords, TrieMap.words_eq_of_beq heq]
    rfl
  | @relation r q heq =>
    rw [words_eq, words_eq, contentWords, contentWords, TrieSet.words_eq_of_beq heq]
    rfl
termination_by sizeOf x
decreasing_by
  have := List.sizeOf_lt_of_mem hx
  subst_vars
  rw [array.sizeOf_spec]
  omega

/-! ### Sound values -/

/-- Every trie inside the value is well-formed. -/
inductive Sound : Value → Prop
  | bool (b : Bool) : Sound (bool b)
  | int (i : Int64) : Sound (int i)
  | float (x : FloatKey) : Sound (float x)
  | complex (re im : FloatKey) : Sound (complex re im)
  | str (s : String) : Sound (str s)
  | array {xs : List Value} (elements : ∀ x ∈ xs, Sound x) : Sound (array xs)
  | set {s : TrieSet Value} (shape : s.trie.WellFormed fun _ => True)
      (members : ∀ x ∈ s.toList, Sound x) : Sound (set s)
  | map {m : TrieMap Value Value} (shape : m.trie.WellFormed fun _ => True)
      (keys : ∀ e ∈ m.toList, Sound e.1) (values : ∀ e ∈ m.toList, Sound e.2) : Sound (map m)
  | relation {r : Relation String Value} (shape : r.trie.WellFormed fun _ => True)
      (tuples : ∀ t ∈ r.toList, t.trie.WellFormed fun _ => True)
      (values : ∀ t ∈ r.toList, ∀ e ∈ t.toList, Sound e.2) : Sound (relation r)

/-- The value is sound and below a size. -/
def SoundBelow (n : Nat) (x : Value) : Prop := Sound x ∧ sizeOf x < n

/-- A tuple whose values satisfy a predicate. -/
abbrev SoundTuple (ok : Value → Prop) (t : Tuple String Value) : Prop :=
  TrieMap.WellFormed (fun _ => True) ok t

variable {n : Nat}

theorem SoundBelow.array {xs : List Value} (h : SoundBelow (n + 1) (array xs)) :
    ∀ x ∈ xs, SoundBelow n x := by
  obtain ⟨⟨⟩, hsize⟩ := h
  next elements =>
  intro x hx
  have := List.sizeOf_lt_of_mem hx
  rw [array.sizeOf_spec] at hsize
  exact ⟨elements x hx, by omega⟩

theorem SoundBelow.set {s : TrieSet Value} (h : SoundBelow (n + 1) (set s)) :
    s.trie.WellFormed (SoundBelow n) := by
  obtain ⟨⟨⟩, hsize⟩ := h
  next shape members =>
  apply shape.relabel
  intro p hp
  have hmem : p.1.value ∈ s.toList := List.mem_map_of_mem hp
  have := TrieSet.sizeOf_lt_of_mem hmem
  rw [set.sizeOf_spec] at hsize
  exact ⟨members _ hmem, by show sizeOf p.1.value < n; omega⟩

theorem SoundBelow.map {m : TrieMap Value Value} (h : SoundBelow (n + 1) (map m)) :
    m.WellFormed (SoundBelow n) (SoundBelow n) := by
  obtain ⟨⟨⟩, hsize⟩ := h
  next shape keys values =>
  rw [map.sizeOf_spec] at hsize
  constructor
  · apply shape.relabel
    intro p hp
    have hmem : p.1 ∈ m.toList := List.mem_map_of_mem hp
    have := TrieMap.sizeOf_lt_of_mem hmem
    exact ⟨keys _ hmem, by show sizeOf p.1.1 < n; omega⟩
  · intro e he
    have := TrieMap.sizeOf_lt_of_mem he
    exact ⟨values e he, by omega⟩

theorem SoundBelow.relation {r : Relation String Value} (h : SoundBelow (n + 1) (relation r)) :
    r.trie.WellFormed (SoundTuple (SoundBelow n)) := by
  obtain ⟨⟨⟩, hsize⟩ := h
  next shape tuples values =>
  rw [relation.sizeOf_spec] at hsize
  apply shape.relabel
  intro p hp
  have hmem : p.1.value ∈ r.toList := List.mem_map_of_mem hp
  have htuple := TrieSet.sizeOf_lt_of_mem hmem
  refine ⟨tuples _ hmem, ?_⟩
  intro e he
  have := TrieMap.sizeOf_lt_of_mem he
  exact ⟨values _ hmem e he, by
    have : sizeOf (Keyed.key p.1) < sizeOf r := htuple
    omega⟩

/-- **`==` is lawful on sound values below any size.** -/
theorem lawfulOn_below (n : Nat) : LawfulOn (SoundBelow n) := by
  induction n with
  | zero =>
    have hnone : ∀ x, ¬SoundBelow 0 x := fun x hx => Nat.not_lt_zero _ hx.2
    exact ⟨fun hx => absurd hx (hnone _), fun hx => absurd hx (hnone _),
      fun hx => absurd hx (hnone _), fun hx => absurd hx (hnone _)⟩
  | succ n law =>
    have lawSet := TrieSet.lawfulOn law
    have lawMap := TrieMap.lawfulOn law law
    have lawRelation := TrieSet.lawfulOn (TrieMap.lawfulOn (lawfulOn_true (κ := String)) law)
    constructor
    · intro x hx
      rw [beq_iff_alike]
      cases x with
      | bool b => exact .bool b
      | int i => exact .int i
      | float x => exact .float x
      | complex re im => exact .complex re im
      | str s => exact .str s
      | array xs => exact .array (beq_list_refl law hx.array)
      | set s => exact .set (lawSet.refl hx.set)
      | map m => exact .map (lawMap.refl hx.map)
      | relation r => exact .relation (lawRelation.refl hx.relation)
    · intro x y hx hy h
      rw [beq_iff_alike] at h ⊢
      cases h with
      | bool b => exact .bool b
      | int i => exact .int i
      | float x => exact .float x
      | complex re im => exact .complex re im
      | str s => exact .str s
      | array h => exact .array (beq_list_symm law hx.array hy.array h)
      | set h => exact .set (lawSet.symm hx.set hy.set h)
      | map h => exact .map (lawMap.symm hx.map hy.map h)
      | relation h => exact .relation (lawRelation.symm hx.relation hy.relation h)
    · intro x y z hx hy hz h h'
      rw [beq_iff_alike] at h h' ⊢
      cases h with
      | bool b => exact h'
      | int i => exact h'
      | float x => exact h'
      | complex re im => exact h'
      | str s => exact h'
      | array h =>
        cases h' with
        | array h' => exact .array (beq_list_trans law hx.array hy.array hz.array h h')
      | set h =>
        cases h' with
        | set h' => exact .set (lawSet.trans hx.set hy.set hz.set h h')
      | map h =>
        cases h' with
        | map h' => exact .map (lawMap.trans hx.map hy.map hz.map h h')
      | relation h =>
        cases h' with
        | relation h' =>
          exact .relation (lawRelation.trans hx.relation hy.relation hz.relation h h')
    · intro x y _ _ h seed
      rw [hashSeeded, hashSeeded, words_eq_of_beq x y h]

/-- **`==` is lawful on sound values.** -/
theorem lawfulOn_sound : LawfulOn Sound where
  refl {x} hx := (lawfulOn_below (sizeOf x + 1)).refl ⟨hx, Nat.lt_succ_self _⟩
  symm {x y} hx hy := (lawfulOn_below (sizeOf x + sizeOf y + 1)).symm ⟨hx, by omega⟩ ⟨hy, by omega⟩
  trans {x y z} hx hy hz :=
    (lawfulOn_below (sizeOf x + sizeOf y + sizeOf z + 1)).trans ⟨hx, by omega⟩ ⟨hy, by omega⟩
      ⟨hz, by omega⟩
  hashSeeded_congr {x y} _ _ h seed := by rw [hashSeeded, hashSeeded, words_eq_of_beq x y h]

theorem lawfulOn_tuple : LawfulOn (SoundTuple Sound) :=
  TrieMap.lawfulOn lawfulOn_true lawfulOn_sound

/-! ### Built values -/

/-- The value is made by the constructors, and every collection in it came about by operations
    whose keys satisfy some predicate that only built values satisfy. -/
inductive Built : Value → Prop
  | bool (b : Bool) : Built (bool b)
  | int (i : Int64) : Built (int i)
  | float (x : FloatKey) : Built (float x)
  | complex (re im : FloatKey) : Built (complex re im)
  | str (s : String) : Built (str s)
  | array {xs : List Value} (elements : ∀ x ∈ xs, Built x) : Built (array xs)
  | set {ok : Value → Prop} {s : TrieSet Value} (history : s.Reachable ok)
      (members : ∀ x, ok x → Built x) : Built (set s)
  | map {ok : Value → Prop} {m : TrieMap Value Value} (history : m.Reachable ok)
      (keys : ∀ k, ok k → Built k) (values : ∀ e ∈ m.toList, Built e.2) : Built (map m)
  | relation {ok : Tuple String Value → Prop} {r : Relation String Value}
      (history : r.Reachable ok) (tuples : ∀ t, ok t → t.Reachable fun _ => True)
      (values : ∀ t, ok t → ∀ e ∈ t.toList, Built e.2) : Built (relation r)

/-- **Built values are sound**, by induction on how they were built: operations keep their
    results well-formed as long as `==` is lawful on what they are given. -/
theorem Built.sound {x : Value} (h : Built x) : Sound x := by
  induction h with
  | bool b => exact .bool b
  | int i => exact .int i
  | float x => exact .float x
  | complex re im => exact .complex re im
  | str s => exact .str s
  | array elements ih => exact .array ih
  | set history members ih =>
    have hwf := history.wellFormed (lawfulOn_sound.mono ih)
    refine .set (hwf.relabel fun _ _ => trivial) ?_
    intro x hx
    exact ih x (TrieSet.lawful_of_mem hwf hx)
  | map history keys values ihk ihv =>
    have hwf := history.wellFormed (lawfulOn_sound.mono ihk)
    refine .map (hwf.relabel fun _ _ => trivial) ?_ ihv
    intro e he
    exact ihk e.1 (TrieMap.lawful_of_mem hwf he)
  | relation history tuples values ih =>
    have htuple : ∀ t, _ → SoundTuple Sound t := fun t ht =>
      ⟨(tuples t ht).wellFormed lawfulOn_true, ih t ht⟩
    have hwf := history.wellFormed (lawfulOn_tuple.mono htuple)
    refine .relation (hwf.relabel fun _ _ => trivial) ?_ ?_
    · intro t ht
      exact (htuple t (TrieSet.lawful_of_mem hwf ht)).trie
    · intro t ht
      exact ih t (TrieSet.lawful_of_mem hwf ht)

theorem lawfulOn_built : LawfulOn Built := lawfulOn_sound.mono fun _ h => h.sound

theorem wellFormed_of_built_set {s : TrieSet Value} (h : Built (set s)) :
    s.trie.WellFormed Built := by
  cases h with
  | set history members =>
    have hwf := history.wellFormed (lawfulOn_built.mono members)
    exact hwf.relabel fun p hp => members _ (hwf.lawful p hp)

theorem wellFormed_of_built_map {m : TrieMap Value Value} (h : Built (map m)) :
    m.WellFormed Built Built := by
  cases h with
  | map history keys values =>
    have hwf := history.wellFormed (lawfulOn_built.mono keys)
    exact ⟨hwf.relabel fun p hp => keys _ (hwf.lawful p hp), values⟩

/-- Sets as values are equal when they have the same members, however deeply these are nested. -/
theorem beq_set_iff_contains {s t : TrieSet Value} (hs : Built (set s)) (ht : Built (set t)) :
    (set s == set t) = true ↔ ∀ x, Built x → s.contains x = t.contains x := by
  rw [beq_set]
  exact TrieSet.beq_iff_contains lawfulOn_built (wellFormed_of_built_set hs)
    (wellFormed_of_built_set ht)

/-- Maps as values are equal when equal values stand under the same keys. -/
theorem beq_map_iff_agree {m n : TrieMap Value Value} (hm : Built (map m)) (hn : Built (map n)) :
    (map m == map n) = true ↔ TrieMap.Agree Built m n := by
  rw [beq_map]
  exact TrieMap.beq_iff_agree lawfulOn_built (wellFormed_of_built_map hm)
    (wellFormed_of_built_map hn) lawfulOn_built

/-- A tuple that came about by operations and whose values are built. -/
abbrev BuiltTuple (t : Tuple String Value) : Prop :=
  TrieMap.ReachableWith (fun _ => True) Built t

theorem lawfulOn_builtTuple : LawfulOn BuiltTuple :=
  TrieMap.lawfulOn_reachableWith lawfulOn_true lawfulOn_built

theorem wellFormed_of_built_relation {r : Relation String Value} (h : Built (relation r)) :
    r.trie.WellFormed BuiltTuple := by
  cases h with
  | @relation ok _ history tuples values =>
    have hok : ∀ t, ok t → BuiltTuple t := fun t ht => ⟨tuples t ht, values t ht⟩
    have hwf := history.wellFormed (lawfulOn_builtTuple.mono hok)
    exact hwf.relabel fun p hp => hok _ (hwf.lawful p hp)

/-- Relations as values are equal when they have the same tuples. -/
theorem beq_relation_iff_contains {r q : Relation String Value} (hr : Built (relation r))
    (hq : Built (relation q)) :
    (relation r == relation q) = true ↔ ∀ t, BuiltTuple t → r.contains t = q.contains t := by
  rw [beq_relation]
  exact TrieSet.beq_iff_contains lawfulOn_builtTuple (wellFormed_of_built_relation hr)
    (wellFormed_of_built_relation hq)

/-! ### Equal values in a collection -/

section Interchange

variable {a b : Value} (ha : Built a) (hb : Built b) (h : (a == b) = true)

include ha hb h

theorem interchange_members {s : TrieSet Value} (hs : s.Reachable Built) :
    s.get? a = s.get? b ∧ s.contains a = s.contains b ∧ (s.insert a == s.insert b) = true ∧
      (s.erase a == s.erase b) = true := by
  have law := lawfulOn_built
  have hwf := hs.wellFormed law
  have hrefl := (TrieSet.lawfulOn law).refl hwf
  refine ⟨?_, ?_, ?_, ?_⟩
  · exact TrieSet.get?_congr law hwf ha hb h
  · exact TrieSet.contains_congr law hwf ha hb h
  · exact TrieSet.insert_congr law hwf hwf hrefl ha hb h
  · exact TrieSet.erase_congr law hwf hwf hrefl ha hb h

theorem interchange_keys {m : TrieMap Value Value} (hm : m.Reachable Built)
    (hvalues : ∀ e ∈ m.toList, Built e.2) :
    m.getEntry? a = m.getEntry? b ∧ m.get? a = m.get? b ∧
      (∀ v, Built v → (m.insert a v == m.insert b v) = true) ∧
      (m.erase a == m.erase b) = true := by
  have law := lawfulOn_built
  have hwf : m.WellFormed Built Built := ⟨hm.wellFormed law, hvalues⟩
  have hrefl := (TrieMap.lawfulOn law law).refl hwf
  refine ⟨?_, ?_, ?_, ?_⟩
  · exact TrieMap.getEntry?_congr law hwf.trie ha hb h
  · exact TrieMap.get?_congr law hwf.trie ha hb h
  · intro v hv
    exact TrieMap.insert_congr law law hwf hwf hrefl ha hb h hv hv (law.refl hv)
  · exact TrieMap.erase_congr law law hwf hwf hrefl ha hb h

theorem interchange_values {t : Tuple String Value} (ht : BuiltTuple t) (name : String)
    {r : Relation String Value} (hr : r.Reachable BuiltTuple) :
    let u := TrieMap.insert t name a
    let v := TrieMap.insert t name b
    (u == v) = true ∧ r.get? u = r.get? v ∧ r.contains u = r.contains v ∧
      (r.insert u == r.insert v) = true ∧ (r.erase u == r.erase v) = true := by
  intro u v
  have law := lawfulOn_builtTuple
  have hwt := ht.wellFormed lawfulOn_true
  have hu : BuiltTuple u := ht.insert lawfulOn_true trivial ha
  have hv : BuiltTuple v := ht.insert lawfulOn_true trivial hb
  have hwf := hr.wellFormed law
  have hrefl := (TrieSet.lawfulOn law).refl hwf
  have hequal : (u == v) = true :=
    TrieMap.insert_congr lawfulOn_true lawfulOn_built hwt hwt (law.refl ht) trivial trivial BEq.rfl
      ha hb h
  refine ⟨hequal, ?_, ?_, ?_, ?_⟩
  · exact TrieSet.get?_congr law hwf hu hv hequal
  · exact TrieSet.contains_congr law hwf hu hv hequal
  · exact TrieSet.insert_congr law hwf hwf hrefl hu hv hequal
  · exact TrieSet.erase_congr law hwf hwf hrefl hu hv hequal

end Interchange

/-- **Values are lawful keys at every depth.**  On values that are built, whatever collections
    they hold and whichever way these came about, `==` is an equivalence, and equal values have
    equal hashes under every seed.  So one can stand for the other: as a member of a set, as a
    key of a map, and as a value in a tuple, which is then an equal tuple and the same member of
    a relation. -/
theorem built_values_lawful {a b c : Value} (ha : Built a) (hb : Built b) (hc : Built c) :
    (a == a) = true ∧
    (a == b) = (b == a) ∧
    ((a == b) = true → (b == c) = true → (a == c) = true) ∧
    ((a == b) = true →
      (∀ seed, hashSeeded seed a = hashSeeded seed b) ∧
      (∀ s : TrieSet Value, s.Reachable Built →
        s.get? a = s.get? b ∧ s.contains a = s.contains b ∧ (s.insert a == s.insert b) = true ∧
        (s.erase a == s.erase b) = true) ∧
      (∀ m : TrieMap Value Value, m.Reachable Built → (∀ e ∈ m.toList, Built e.2) →
        m.getEntry? a = m.getEntry? b ∧ m.get? a = m.get? b ∧
        (∀ v, Built v → (m.insert a v == m.insert b v) = true) ∧
        (m.erase a == m.erase b) = true) ∧
      ∀ t : Tuple String Value, BuiltTuple t → ∀ name,
        ∀ r : Relation String Value, r.Reachable BuiltTuple →
          let u := TrieMap.insert t name a
          let v := TrieMap.insert t name b
          (u == v) = true ∧ r.get? u = r.get? v ∧ r.contains u = r.contains v ∧
          (r.insert u == r.insert v) = true ∧ (r.erase u == r.erase v) = true) := by
  have law := lawfulOn_built
  refine ⟨law.refl ha, law.beq_comm ha hb, law.trans ha hb hc, ?_⟩
  intro h
  refine ⟨law.hashSeeded_congr ha hb h, ?_, ?_, ?_⟩
  · intro s hs
    exact interchange_members ha hb h hs
  · intro m hm hvalues
    exact interchange_keys ha hb h hm hvalues
  · intro t ht name r hr
    exact interchange_values ha hb h ht name hr

/-- An array of a map that has a set for a key, the members of the set put in in either order. -/
theorem built_values_lawful_reordered :
    let nested (members : TrieSet Value) : Value := array [map (.unit (set members) (bool true))]
    let a := nested ((TrieSet.unit (int 1)).insert (str "a"))
    let b := nested ((TrieSet.unit (str "a")).insert (int 1))
    Built a ∧ Built b ∧ (a == b) = true ∧ (∀ seed, hashSeeded seed a = hashSeeded seed b) ∧
      (TrieSet.unit a).get? b = (TrieSet.unit a).get? a := by
  intro nested a b
  have law := lawfulOn_built
  have hset : ∀ x y : Value, Built x → Built y → Built (set ((TrieSet.unit x).insert y)) :=
    fun x y hx hy => .set (.insert (.unit hx) hy) fun _ h => h
  have hempty : (TrieMap.empty : TrieMap Value Value).WellFormed Built Built := .empty
  have hbuilt : ∀ members, Built (set members) → Built (nested members) := by
    intro members hmembers
    have hunit := hempty.insert law hmembers (.bool true)
    apply Built.array
    simp only [List.mem_singleton, forall_eq]
    exact .map (.unit hmembers _) (fun _ h => h) hunit.values
  have hkeya := hset (int 1) (str "a") (.int 1) (.str "a")
  have hkeyb := hset (str "a") (int 1) (.str "a") (.int 1)
  have hkeys : (set ((TrieSet.unit (int 1)).insert (str "a")) ==
      set ((TrieSet.unit (str "a")).insert (int 1))) = true := by
    rw [beq_set]
    exact TrieSet.insert_comm law TrieSet.wellFormed_empty (.int 1) (.str "a")
  have hequal : (a == b) = true := by
    rw [beq_array, List.cons_beq_cons, beq_map, Bool.and_eq_true]
    exact ⟨TrieMap.insert_congr law law hempty hempty ((TrieMap.lawfulOn law law).refl hempty)
      hkeya hkeyb hkeys (.bool true) (.bool true) (law.refl (.bool true)), rfl⟩
  have ha := hbuilt _ hkeya
  have hb := hbuilt _ hkeyb
  obtain ⟨-, -, -, h⟩ := built_values_lawful ha hb ha
  obtain ⟨hhash, hmembers, -⟩ := h hequal
  exact ⟨ha, hb, hequal, hhash, (hmembers _ (.unit ha)).1.symm⟩

end Value

end TrieCollections
