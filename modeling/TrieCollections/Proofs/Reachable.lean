/-
  TrieCollections/Proofs/Reachable.lean
  =====================================
  **What can come about.**  `Reachable` says which sets and maps the operations produce: it
  has one rule for each of them, builders included, and asks nothing of the operands but
  that keys handed in are lawful.  Operations that make a set of sets or a map of sets are
  runs of these (`reachable_powerset`, `reachable_groupBy`).

  Whatever comes about has a well-formed trie.  That is an induction with one case for each
  rule, and each case is the operation's own lemma.  Everything else is read off from it:
  the shape of the trie, and the size and the hash that are kept beside it.
-/
import TrieCollections.ClusterKey
import TrieCollections.Proofs.CollectionEdits

namespace TrieCollections

/-! ### Runs of a builder -/

inductive SetBuilder.Step (α : Type) where
  | add (x : α)
  | remove (x : α)
  | extend (xs : List α)

inductive MapBuilder.Step (κ ν : Type) where
  | put (k : κ) (v : ν)
  | remove (k : κ)
  | extend (es : List (κ × ν))

namespace SetBuilder

variable {α : Type} [BEq α] [Hashed α]

def Step.keys : Step α → List α
  | add x => [x]
  | remove x => [x]
  | extend xs => xs

def apply (b : SetBuilder α) : Step α → SetBuilder α
  | .add x => b.add x
  | .remove x => b.remove x
  | .extend xs => b.extend xs

def run (b : SetBuilder α) (steps : List (Step α)) : SetBuilder α := steps.foldl apply b

variable {ok : α → Prop} (law : LawfulOn ok) {b : SetBuilder α}

include law

theorem wellFormed_apply (hb : b.set.trie.WellFormed ok) {step : Step α}
    (hstep : ∀ x ∈ step.keys, ok x) : (b.apply step).set.trie.WellFormed ok := by
  cases step with
  | add x => exact TrieSet.wellFormed_insert law hb (hstep x (List.mem_singleton_self x))
  | remove x => exact TrieSet.wellFormed_erase law hb (hstep x (List.mem_singleton_self x))
  | extend xs => exact TrieSet.wellFormed_insertMany law hb hstep

theorem wellFormed_run (hb : b.set.trie.WellFormed ok) {steps : List (Step α)}
    (hsteps : ∀ step ∈ steps, ∀ x ∈ step.keys, ok x) :
    (b.run steps).set.trie.WellFormed ok := by
  induction steps generalizing b with
  | nil => exact hb
  | cons step steps ih =>
    exact ih (wellFormed_apply law hb (hsteps step List.mem_cons_self))
      fun s hs => hsteps s (List.mem_cons_of_mem _ hs)

end SetBuilder

namespace MapBuilder

variable {κ ν : Type} [BEq κ] [Hashed κ] [Hashed ν]

def Step.keys : Step κ ν → List κ
  | put k _ => [k]
  | remove k => [k]
  | extend es => es.map Prod.fst

def apply (b : MapBuilder κ ν) : Step κ ν → MapBuilder κ ν
  | .put k v => b.put k v
  | .remove k => b.remove k
  | .extend es => b.extend es

def run (b : MapBuilder κ ν) (steps : List (Step κ ν)) : MapBuilder κ ν := steps.foldl apply b

variable {ok : κ → Prop} (law : LawfulOn ok) {b : MapBuilder κ ν}

include law

theorem wellFormed_apply (hb : b.map.trie.WellFormed ok) {step : Step κ ν}
    (hstep : ∀ k ∈ step.keys, ok k) : (b.apply step).map.trie.WellFormed ok := by
  cases step with
  | put k v => exact TrieMap.wellFormed_insert law hb (hstep k (List.mem_singleton_self k)) v
  | remove k => exact TrieMap.wellFormed_erase law hb (hstep k (List.mem_singleton_self k))
  | extend es =>
    exact TrieMap.wellFormed_insertMany law hb fun e he => hstep e.1 (List.mem_map_of_mem he)

theorem wellFormed_run (hb : b.map.trie.WellFormed ok) {steps : List (Step κ ν)}
    (hsteps : ∀ step ∈ steps, ∀ k ∈ step.keys, ok k) :
    (b.run steps).map.trie.WellFormed ok := by
  induction steps generalizing b with
  | nil => exact hb
  | cons step steps ih =>
    exact ih (wellFormed_apply law hb (hsteps step List.mem_cons_self))
      fun s hs => hsteps s (List.mem_cons_of_mem _ hs)

end MapBuilder

/-! ### Sets that come about -/

namespace TrieSet

variable {α : Type} [BEq α] [Hashed α]

/-- The set comes about by operations whose keys satisfy `ok`. -/
inductive Reachable (ok : α → Prop) : TrieSet α → Prop
  | empty : Reachable ok empty
  | unit {x : α} (hx : ok x) : Reachable ok (unit x)
  | ofList {xs : List α} (hxs : ∀ x ∈ xs, ok x) : Reachable ok (ofList xs)
  | mark {s : TrieSet α} (hs : Reachable ok s) (stamps : Stamps) :
      Reachable ok ⟨(stamps.mark s.trie).1⟩
  | insert {s : TrieSet α} (hs : Reachable ok s) {x : α} (hx : ok x) : Reachable ok (s.insert x)
  | erase {s : TrieSet α} (hs : Reachable ok s) {x : α} (hx : ok x) : Reachable ok (s.erase x)
  | insertMany {s : TrieSet α} (hs : Reachable ok s) {xs : List α} (hxs : ∀ x ∈ xs, ok x) :
      Reachable ok (s.insertMany xs)
  | eraseMany {s : TrieSet α} (hs : Reachable ok s) {xs : List α} (hxs : ∀ x ∈ xs, ok x) :
      Reachable ok (s.eraseMany xs)
  | filter {s : TrieSet α} (hs : Reachable ok s) (p : α → Bool) : Reachable ok (s.filter p)
  | union {s t : TrieSet α} (hs : Reachable ok s) (ht : Reachable ok t) : Reachable ok (s.union t)
  | intersection {s t : TrieSet α} (hs : Reachable ok s) (ht : Reachable ok t) :
      Reachable ok (s.intersection t)
  | difference {s t : TrieSet α} (hs : Reachable ok s) (ht : Reachable ok t) :
      Reachable ok (s.difference t)
  | symmetricDifference {s t : TrieSet α} (hs : Reachable ok s) (ht : Reachable ok t) :
      Reachable ok (s.symmetricDifference t)
  | unions {ss : List (TrieSet α)} (hss : ∀ s ∈ ss, Reachable ok s) : Reachable ok (unions ss)
  | flatten {ss : TrieSet (TrieSet α)} (hss : ∀ s ∈ ss.toList, Reachable ok s) :
      Reachable ok ss.flatten
  | map {β : Type} {u : TrieSet β} {f : β → α} (hf : ∀ x ∈ u.toList, ok (f x)) :
      Reachable ok (u.map f)
  | keySet {ν : Type} {m : TrieMap α ν} (hm : ∀ e ∈ m.toList, ok e.1) : Reachable ok m.keySet
  | finish {s : TrieSet α} (hs : Reachable ok s) {steps : List (SetBuilder.Step α)}
      (hsteps : ∀ step ∈ steps, ∀ x ∈ step.keys, ok x) :
      Reachable ok ((SetBuilder.ofSet s).run steps).finish

variable {ok : α → Prop}

/-- **Sets that come about are well-formed.** -/
theorem Reachable.wellFormed (law : LawfulOn ok) {s : TrieSet α} (h : s.Reachable ok) :
    s.trie.WellFormed ok := by
  induction h with
  | empty => exact wellFormed_empty
  | unit hx => exact wellFormed_insert law wellFormed_empty hx
  | ofList hxs => exact wellFormed_insertMany law wellFormed_empty hxs
  | mark hs stamps ih => exact wellFormed_mark ih stamps
  | insert hs hx ih => exact wellFormed_insert law ih hx
  | erase hs hx ih => exact wellFormed_erase law ih hx
  | insertMany hs hxs ih => exact wellFormed_insertMany law ih hxs
  | eraseMany hs hxs ih => exact wellFormed_eraseMany law ih hxs
  | filter hs p ih => exact wellFormed_filter law ih p
  | union hs ht ihs iht => exact wellFormed_union law ihs iht
  | intersection hs ht ihs iht => exact wellFormed_intersection law ihs iht
  | difference hs ht ihs iht => exact wellFormed_difference law ihs iht
  | symmetricDifference hs ht ihs iht => exact wellFormed_symmetricDifference law ihs iht
  | unions hss ih => exact wellFormed_unions law ih
  | flatten hss ih => exact wellFormed_unions law ih
  | map hf => exact wellFormed_map law hf
  | keySet hm => exact TrieMap.wellFormed_keySet law hm
  | finish hs hsteps ih => exact SetBuilder.wellFormed_run law ih hsteps

/-- The set of all subsets comes about, if subsets are lawful keys. -/
theorem reachable_powerset {okSet : TrieSet α → Prop} (law : LawfulOn okSet) {s : TrieSet α}
    (hempty : okSet .empty) (hinsert : ∀ t x, okSet t → x ∈ s.toList → okSet (t.insert x)) :
    s.powerset.Reachable okSet := by
  refine List.foldlRecOn (motive := Reachable okSet) s.toList _ (.unit hempty) ?_
  intro subsets hsubsets x hx
  refine hsubsets.insertMany ?_
  intro t' ht'
  obtain ⟨t, ht, rfl⟩ := List.mem_map.mp ht'
  exact hinsert t x (lawful_of_mem (hsubsets.wellFormed law) ht) hx

end TrieSet

/-! ### Maps that come about -/

namespace TrieMap

variable {κ ν : Type} [BEq κ] [Hashed κ] [Hashed ν]

/-- The map comes about by operations whose keys satisfy `ok`. -/
inductive Reachable (ok : κ → Prop) : TrieMap κ ν → Prop
  | empty : Reachable ok empty
  | unit {k : κ} (hk : ok k) (v : ν) : Reachable ok (unit k v)
  | ofList {es : List (κ × ν)} (hes : ∀ e ∈ es, ok e.1) : Reachable ok (ofList es)
  | mark {m : TrieMap κ ν} (hm : Reachable ok m) (stamps : Stamps) :
      Reachable ok ⟨(stamps.mark m.trie).1⟩
  | insert {m : TrieMap κ ν} (hm : Reachable ok m) {k : κ} (hk : ok k) (v : ν) :
      Reachable ok (m.insert k v)
  | erase {m : TrieMap κ ν} (hm : Reachable ok m) {k : κ} (hk : ok k) : Reachable ok (m.erase k)
  | insertMany {m : TrieMap κ ν} (hm : Reachable ok m) {es : List (κ × ν)}
      (hes : ∀ e ∈ es, ok e.1) : Reachable ok (m.insertMany es)
  | eraseMany {m : TrieMap κ ν} (hm : Reachable ok m) {ks : List κ} (hks : ∀ k ∈ ks, ok k) :
      Reachable ok (m.eraseMany ks)
  | filter {m : TrieMap κ ν} (hm : Reachable ok m) (p : κ → ν → Bool) : Reachable ok (m.filter p)
  | union {m n : TrieMap κ ν} (hm : Reachable ok m) (hn : Reachable ok n) :
      Reachable ok (m.union n)
  | intersection {m n : TrieMap κ ν} (hm : Reachable ok m) (hn : Reachable ok n) :
      Reachable ok (m.intersection n)
  | difference {m n : TrieMap κ ν} (hm : Reachable ok m) (hn : Reachable ok n) :
      Reachable ok (m.difference n)
  | symmetricDifference {m n : TrieMap κ ν} (hm : Reachable ok m) (hn : Reachable ok n) :
      Reachable ok (m.symmetricDifference n)
  | unions {ms : List (TrieMap κ ν)} (hms : ∀ m ∈ ms, Reachable ok m) : Reachable ok (unions ms)
  | mapValues {ω : Type} {u : TrieMap κ ω} {f : κ → ω → ν} (hu : ∀ e ∈ u.toList, ok e.1) :
      Reachable ok (u.mapValues f)
  | project {m : TrieMap κ ν} (hm : Reachable ok m) {ks : TrieSet κ} (hks : ∀ k ∈ ks.toList, ok k) :
      Reachable ok (m.project ks)
  | finish {m : TrieMap κ ν} (hm : Reachable ok m) {steps : List (MapBuilder.Step κ ν)}
      (hsteps : ∀ step ∈ steps, ∀ k ∈ step.keys, ok k) :
      Reachable ok ((MapBuilder.ofMap m).run steps).finish

variable {ok : κ → Prop}

/-- **Maps that come about are well-formed.** -/
theorem Reachable.wellFormed (law : LawfulOn ok) {m : TrieMap κ ν} (h : m.Reachable ok) :
    m.trie.WellFormed ok := by
  induction h with
  | empty => exact wellFormed_empty
  | unit hk v => exact wellFormed_insert law wellFormed_empty hk v
  | ofList hes => exact wellFormed_insertMany law wellFormed_empty hes
  | mark hm stamps ih => exact wellFormed_mark ih stamps
  | insert hm hk v ih => exact wellFormed_insert law ih hk v
  | erase hm hk ih => exact wellFormed_erase law ih hk
  | insertMany hm hes ih => exact wellFormed_insertMany law ih hes
  | eraseMany hm hks ih => exact wellFormed_eraseMany law ih hks
  | filter hm p ih => exact wellFormed_filter law ih p
  | union hm hn ihm ihn => exact wellFormed_union law ihm ihn
  | intersection hm hn ihm ihn => exact wellFormed_intersection law ihm ihn
  | difference hm hn ihm ihn => exact wellFormed_difference law ihm ihn
  | symmetricDifference hm hn ihm ihn => exact wellFormed_symmetricDifference law ihm ihn
  | unions hms ih => exact wellFormed_unions law ih
  | mapValues hu => exact wellFormed_mapValues law hu
  | project hm hks ih => exact wellFormed_project law ih hks
  | finish hm hsteps ih => exact MapBuilder.wellFormed_run law ih hsteps

/-- The groups of any set come about, as far as its members have lawful images. -/
theorem reachable_groupBy {α : Type} [BEq α] [Hashed α] {s : TrieSet α} {f : α → κ}
    (hf : ∀ x ∈ s.toList, ok (f x)) : (s.groupBy f).Reachable ok := by
  refine List.foldlRecOn (motive := Reachable ok) s.toList _ .empty ?_
  intro groups hgroups x hx
  exact hgroups.insert (hf x hx) _

end TrieMap

/-! ### The shape of what comes about -/

/-- What holds of the shape of every trie that comes about. -/
structure Trie.Sound {ε κ : Type} [BEq κ] [Hashed κ] [Keyed ε κ] (ok : κ → Prop) (t : Trie ε) :
    Prop where
  /-- The root is absent exactly when the trie is empty. -/
  root_absent : t.root = none ↔ t.size = 0
  /-- All nodes are as `Node.WellFormed` says, from the root at depth 0 down. -/
  nodes : ∀ node, t.root = some node → node.WellFormed ok 0
  /-- No two entries of the whole trie have equal keys. -/
  distinct : DistinctKeys t.entries
  /-- The check of the shape succeeds. -/
  sane : t.isSane = true

theorem Trie.WellFormed.sound {ε κ : Type} [BEq κ] [Hashed κ] [Keyed ε κ] {ok : κ → Prop}
    (law : LawfulOn ok) {t : Trie ε} (h : t.WellFormed ok) : t.Sound ok :=
  ⟨h.root_eq_none_iff, h.nodes, h.distinct law, h.isSane⟩

/-- **Every set and every map that comes about has a sound trie**: no empty node, no branch
    without two entries below it, every entry under the hash of its key and in the slots of
    its key's index stream, lists of collisions only at the full depth, and no two equal
    keys. -/
theorem reachable_sound {κ ν : Type} [BEq κ] [Hashed κ] [Hashed ν] {ok : κ → Prop}
    (law : LawfulOn ok) :
    (∀ s : TrieSet κ, s.Reachable ok → s.trie.Sound ok) ∧
    ∀ m : TrieMap κ ν, m.Reachable ok → m.trie.Sound ok := by
  constructor
  · intro s hs
    exact (hs.wellFormed law).sound law
  · intro m hm
    exact (hm.wellFormed law).sound law

/-- A list of collisions that shrinks and is merged with a key of another hash. -/
theorem reachable_sound_colliding :
    LawfulOn (fun _ : ClusterKey => True) ∧
    (((TrieSet.ofList [⟨7, 1, "a"⟩, ⟨7, 2, "b"⟩, ⟨7, 3, "c"⟩]).erase ⟨7, 2, "b"⟩).union
      (.unit (⟨9, 1, "d"⟩ : ClusterKey))).trie.Sound fun _ => True :=
  ⟨lawfulOn_true, (@reachable_sound ClusterKey Int64 _ _ _ _ lawfulOn_true).1 _
    (.union (.erase (.ofList fun _ _ => trivial) trivial) (.unit trivial))⟩

/-! ### What is counted and combined -/

section Counters

variable {κ ν : Type} [BEq κ] [Hashed κ] [Hashed ν] {ok : κ → Prop}

theorem TrieSet.size_eq_length {s : TrieSet κ} (h : s.trie.WellFormed ok) :
    s.size = s.toList.length := by
  rw [TrieSet.size, TrieSet.toList, List.length_map]
  exact h.size_eq

theorem TrieSet.hash_eq_xorAll {s : TrieSet κ} (h : s.trie.WellFormed ok) :
    s.hash = xorAll (s.toList.map hashValue) := by
  rw [TrieSet.hash, h.hash_eq, combined, TrieSet.toList, List.map_map]
  refine congrArg xorAll (List.map_congr_left ?_)
  intro p hp
  exact (h.stored p hp).hash

theorem TrieMap.size_eq_length {m : TrieMap κ ν} (h : m.trie.WellFormed ok) :
    m.size = m.toList.length := by
  rw [TrieMap.size, TrieMap.toList, List.length_map]
  exact h.size_eq

theorem TrieMap.hash_eq_xorAll {m : TrieMap κ ν} (h : m.trie.WellFormed ok) :
    m.hash = xorAll (m.toList.map fun e => hashSeeded (hashValue e.1) e.2) := by
  rw [TrieMap.hash, h.hash_eq, combined, TrieMap.toList, List.map_map]
  refine congrArg xorAll (List.map_congr_left ?_)
  intro p hp
  show hashSeeded p.2 p.1.2 = hashSeeded (hashValue p.1.1) p.1.2
  rw [show p.2 = hashValue p.1.1 from (h.stored p hp).hash]

/-- **Size and hash are right for every set and every map that comes about**: the size is
    the number of entries, the hash is the xor of what exactly these entries contribute,
    and a removal never counts below zero. -/
theorem reachable_counters (law : LawfulOn ok) :
    (∀ s : TrieSet κ, s.Reachable ok →
      s.size = s.toList.length ∧
      s.hash = xorAll (s.toList.map hashValue) ∧
      ∀ x, ok x → (s.erase x).size + (if (s.extract x).2.isSome then 1 else 0) = s.size) ∧
    ∀ m : TrieMap κ ν, m.Reachable ok →
      m.size = m.toList.length ∧
      m.hash = xorAll (m.toList.map fun e => hashSeeded (hashValue e.1) e.2) ∧
      ∀ k, ok k → (m.erase k).size + (if (m.extract k).2.isSome then 1 else 0) = m.size := by
  constructor
  · intro s hs
    have hwf := hs.wellFormed law
    refine ⟨TrieSet.size_eq_length hwf, TrieSet.hash_eq_xorAll hwf, fun x hx => ?_⟩
    show _ + (if (Option.map Member.value (s.trie.remove x).2).isSome then 1 else 0) = _
    rw [Option.isSome_map]
    exact hwf.size_remove law hx
  · intro m hm
    have hwf := hm.wellFormed law
    exact ⟨TrieMap.size_eq_length hwf, TrieMap.hash_eq_xorAll hwf,
      fun k hk => hwf.size_remove law hk⟩

/-- A value replaced under an equal key, one of three colliding keys removed, and a merge. -/
theorem reachable_counters_colliding :
    LawfulOn (fun _ : ClusterKey => True) ∧
    let m := (((TrieMap.ofList [(⟨7, 1, "a"⟩, (10 : Int64)), (⟨7, 2, "b"⟩, 20), (⟨7, 3, "c"⟩, 30),
      ((⟨7, 1, "d"⟩ : ClusterKey), 11)]).erase ⟨7, 2, "e"⟩).symmetricDifference
        (.unit ⟨7, 3, "f"⟩ 31))
    m.size = m.toList.length :=
  ⟨lawfulOn_true, ((reachable_counters lawfulOn_true).2 _
    (.symmetricDifference (.erase (.ofList fun _ _ => trivial) trivial) (.unit trivial _))).1⟩

end Counters

end TrieCollections
