/-
  TrieCollections/Proofs/Headers.lean
  ===================================
  **The operators keep headers.**  The join reads the header of a relation from one tuple and
  takes it for that of all, and nothing checks this.  It is the operators themselves that have
  to see to it: the tuples of each result have one header again, and it is known from the
  headers of the operands.

  A tuple *spans* a header when it has exactly the attributes in it (`Spans`).  Whatever is done
  to a tuple has its counterpart on the header, and that is one lemma for each edit.  For the
  relations there are two ways to come from the tuples to the whole:

    * Set operations make no tuples, so what all members of the operands span, those of the
      result span as well.  Well-formedness of sets with respect to any lawful predicate says
      just that (`Headed.spanned`).
    * A projection, a join, a nesting or an unnesting makes its tuples by edits, and each tuple
      of the result is, or equals, one that came out of such edits.
-/
import TrieCollections.Proofs.NaturalJoin
import TrieCollections.Proofs.NestedGroups

namespace TrieCollections

open TrieMap (ReachableWith)

/-! ### Tuples -/

/-- The tuple has exactly the attributes of the header. -/
def TrieMap.Spans {κ ν : Type} [BEq κ] [Hashed κ] [Hashed ν] (ok : κ → Prop)
    (header : TrieSet κ) (t : Tuple κ ν) : Prop :=
  ∀ k, ok k → t.contains k = header.contains k

section Tuples

variable {κ ν : Type} [BEq κ] [Hashed κ] [Hashed ν] {ok : κ → Prop} (law : LawfulOn ok)
  {h g : TrieSet κ} (hh : h.trie.WellFormed ok) (hg : g.trie.WellFormed ok) {t u : Tuple κ ν}
  (ht : t.trie.WellFormed ok) (hu : u.trie.WellFormed ok)

namespace TrieMap

include law ht

include hh in
theorem keySet_beq_iff_spans : (t.keySet == h) = true ↔ Spans ok h t := by
  rw [TrieSet.beq_iff_contains law (keySet_wellFormed law ht) hh]
  constructor
  · intro hkeys k hk
    rw [← contains_keySet law ht hk, hkeys k hk]
  · intro hspans k hk
    rw [contains_keySet law ht hk, hspans k hk]

namespace Spans

variable (hspans : Spans ok h t)

include hspans

include hh hg in
theorem project : Spans ok (h.intersection g) (t.project g) := by
  intro k hk
  rw [contains_project law ht hg hk, TrieSet.contains_intersection law hh hg hk, hspans k hk,
    Bool.and_comm]

include hh hg in
theorem outside : Spans ok (h.difference g) (Relation.outside g t) := by
  intro k hk
  rw [Relation.contains_outside law hg ht hk, TrieSet.contains_difference law hh hg hk,
    hspans k hk, Bool.and_comm]

include hh in
theorem insert {a : κ} (ha : ok a) (v : ν) : Spans ok (h.insert a) (t.insert a v) := by
  intro k hk
  rw [contains_insert law ht ha hk, TrieSet.contains_insert law hh ha hk, hspans k hk,
    Bool.or_comm]

include hh in
theorem erase {a : κ} (ha : ok a) : Spans ok (h.erase a) (t.erase a) := by
  intro k hk
  rw [contains_erase law ht ha hk, TrieSet.contains_erase law hh ha hk, hspans k hk]

include hh hg hu in
theorem update (hspans' : Spans ok g u) : Spans ok (h.union g) (t.update u) := by
  intro k hk
  rw [contains_update law ht hu hk, TrieSet.contains_union law hh hg hk, hspans k hk,
    hspans' k hk]

end Spans

end TrieMap

end Tuples

namespace Relation

/-! ### Rows -/

section Rows

variable {κ ν : Type} [BEq κ] [Hashed κ] [BEq ν] [Hashed ν] {header : List κ}

/-- Rows are all taken, or there is an error. -/
theorem addRows_eq_ok_iff {index : Nat} {rows : List (List ν)} {rel out : Relation κ ν} :
    addRows header index rows rel = .ok out ↔
      (∀ row ∈ rows, row.length = header.length) ∧
        out = rel.insertMany (rows.map (tupleOfRow header)) := by
  induction rows generalizing index rel with
  | nil => simp [addRows, TrieSet.insertMany, eq_comm]
  | cons row rows ih =>
    rw [addRows]
    split
    · next hlength =>
      rw [ih, List.forall_mem_cons, List.map_cons]
      simp only [hlength, true_and]
      rfl
    · next hlength => simp [hlength]

variable {ok : κ → Prop} {okValue : ν → Prop} (law : LawfulOn ok) (hheader : ∀ k ∈ header, ok k)
  {row : List ν}

include law hheader

omit [BEq ν] in
theorem reachableWith_tupleOfRow (hrow : ∀ v ∈ row, okValue v) :
    ReachableWith ok okValue (tupleOfRow header row) :=
  .ofList law fun e he => ⟨hheader e.1 (List.of_mem_zip he).1, hrow e.2 (List.of_mem_zip he).2⟩

omit [BEq ν] in
/-- A row of the right length fills the header. -/
theorem spans_tupleOfRow (hlength : row.length = header.length) :
    TrieMap.Spans ok (.ofList header) (tupleOfRow header row) := by
  intro k hk
  have hkeys : (header.zip row).map Prod.fst = header :=
    List.map_fst_zip (Nat.le_of_eq hlength.symm)
  have hzip : ∀ e ∈ header.zip row, ok e.1 := fun e he => hheader e.1 (List.of_mem_zip he).1
  rw [tupleOfRow, TrieMap.contains_ofList law hzip hk, hkeys,
    TrieSet.contains_ofList law hheader hk]

end Rows

/-! ### Relations with a header -/

variable {κ ν : Type} [BEq κ] [Hashed κ] [BEq ν] [Hashed ν] {ok : κ → Prop} {okValue : ν → Prop}

/-- The relation came about by operations, and each of its tuples has the keys of the header. -/
structure Headed (ok : κ → Prop) (okValue : ν → Prop) (header : TrieSet κ) (r : Relation κ ν) :
    Prop where
  header_history : header.Reachable ok
  history : r.Reachable (ReachableWith ok okValue)
  keySet_beq : ∀ t ∈ r.toList, (TrieMap.keySet t == header) = true

/-- A lawful tuple that spans a header. -/
def Spanning (ok : κ → Prop) (okValue : ν → Prop) (header : TrieSet κ) (t : Tuple κ ν) : Prop :=
  ReachableWith ok okValue t ∧ t.Spans ok header

section Spanned

variable (law : LawfulOn ok) (lawValue : LawfulOn okValue) {h : TrieSet κ} {r q : Relation κ ν}

include law lawValue

theorem lawfulOn_spanning : LawfulOn (Spanning ok okValue h) :=
  (TrieMap.lawfulOn_reachableWith law lawValue).mono fun _ ht => ht.1

theorem Headed.spanned (hr : Headed ok okValue h r) :
    r.trie.WellFormed (Spanning ok okValue h) := by
  have hwr := hr.history.wellFormed (TrieMap.lawfulOn_reachableWith law lawValue)
  apply hwr.relabel
  intro p hp
  have hmem : p.1.value ∈ r.toList := List.mem_map_of_mem hp
  have ht := TrieSet.lawful_of_mem hwr hmem
  exact ⟨ht, (TrieMap.keySet_beq_iff_spans law (hr.header_history.wellFormed law)
    (ht.wellFormed law).trie).mp (hr.keySet_beq _ hmem)⟩

omit lawValue in
theorem headed_of_forall_spans (hh : h.Reachable ok) (hr : r.Reachable (ReachableWith ok okValue))
    (hspans : ∀ t ∈ r.toList, Spanning ok okValue h t) : Headed ok okValue h r := by
  refine ⟨hh, hr, ?_⟩
  intro t ht
  obtain ⟨hokt, hspan⟩ := hspans t ht
  exact (TrieMap.keySet_beq_iff_spans law (hh.wellFormed law) (hokt.wellFormed law).trie).mpr hspan

omit lawValue in
theorem headed_of_spanned (hh : h.Reachable ok) (hr : r.Reachable (ReachableWith ok okValue))
    (hspanned : r.trie.WellFormed (Spanning ok okValue h)) : Headed ok okValue h r :=
  headed_of_forall_spans law hh hr fun _ ht => TrieSet.lawful_of_mem hspanned ht

end Spanned

namespace Headed

variable (law : LawfulOn ok) (lawValue : LawfulOn okValue) {h g x : TrieSet κ}
  {r q : Relation κ ν}

include law lawValue

theorem of_ofRows {header : List κ} (hheader : ∀ k ∈ header, ok k) {rows : List (List ν)}
    (hrows : ∀ row ∈ rows, ∀ v ∈ row, okValue v) (hr : ofRows header rows = .ok r) :
    Headed ok okValue (.ofList header) r := by
  obtain ⟨hlengths, rfl⟩ := addRows_eq_ok_iff.mp hr
  have hspanning : ∀ t ∈ rows.map (tupleOfRow header),
      Spanning ok okValue (.ofList header) t := by
    intro t ht
    obtain ⟨row, hrow, rfl⟩ := List.mem_map.mp ht
    exact ⟨reachableWith_tupleOfRow law hheader (hrows row hrow),
      spans_tupleOfRow law hheader (hlengths row hrow)⟩
  exact headed_of_spanned law (.ofList hheader)
    (.insertMany .empty fun t ht => (hspanning t ht).1)
    (TrieSet.wellFormed_insertMany (lawfulOn_spanning law lawValue) TrieSet.wellFormed_empty
      hspanning)

variable (hr : Headed ok okValue h r)

include hr

/-- What the join asks of its operands. -/
theorem uniform : r.Uniform := by
  intro a ha b hb
  have hwr := hr.history.wellFormed (TrieMap.lawfulOn_reachableWith law lawValue)
  have hkeys : ∀ t ∈ r.toList, (TrieMap.keySet t).trie.WellFormed ok := fun t ht =>
    TrieMap.keySet_wellFormed law ((TrieSet.lawful_of_mem hwr ht).wellFormed law).trie
  have hh := hr.header_history.wellFormed law
  have lawKeys := TrieSet.lawfulOn law
  exact lawKeys.trans (hkeys a ha) hh (hkeys b hb) (hr.keySet_beq a ha)
    (lawKeys.symm (hkeys b hb) hh (hr.keySet_beq b hb))

theorem project (hx : x.Reachable ok) : Headed ok okValue (h.intersection x) (r.project x) := by
  have hwh := hr.header_history.wellFormed law
  have hwx := hx.wellFormed law
  have hspanning : ∀ t ∈ r.toList,
      Spanning ok okValue (h.intersection x) (TrieMap.project t x) := by
    intro t ht
    obtain ⟨hokt, hspans⟩ := TrieSet.lawful_of_mem (hr.spanned law lawValue) ht
    exact ⟨hokt.project law hwx, hspans.project law hwh hwx (hokt.wellFormed law).trie⟩
  exact headed_of_spanned law (hr.header_history.intersection hx)
    (.map fun t ht => (hspanning t ht).1)
    (TrieSet.wellFormed_map (lawfulOn_spanning law lawValue) hspanning)

theorem join (hq : Headed ok okValue g q) : Headed ok okValue (h.union g) (r.join q) := by
  have lawTuple := TrieMap.lawfulOn_reachableWith law lawValue
  have hwr := hr.history.wellFormed lawTuple
  have hwq := hq.history.wellFormed lawTuple
  have hjoin := reachable_join law lawValue hwr hwq
  have hwj := hjoin.wellFormed lawTuple
  refine headed_of_forall_spans law (hr.header_history.union hq.header_history) hjoin ?_
  intro u hu
  have hoku := TrieSet.lawful_of_mem hwj hu
  obtain ⟨a, ha, b, hb, -, heq⟩ :=
    (contains_join law lawValue hwr hwq (hr.uniform law lawValue) (hq.uniform law lawValue) hoku).mp
      (TrieSet.contains_of_mem lawTuple hwj hu)
  obtain ⟨hoka, hspansa⟩ := TrieSet.lawful_of_mem (hr.spanned law lawValue) ha
  obtain ⟨hokb, hspansb⟩ := TrieSet.lawful_of_mem (hq.spanned law lawValue) hb
  have hupdate := hspansa.update law (hr.header_history.wellFormed law)
    (hq.header_history.wellFormed law) (hoka.wellFormed law).trie (hokb.wellFormed law).trie hspansb
  refine ⟨hoku, ?_⟩
  intro k hk
  rw [TrieMap.contains_eq_of_beq law lawValue (hoku.wellFormed law)
    ((hoka.update law hokb).wellFormed law) heq hk, hupdate k hk]

/-! Set operations hand on tuples of their operands. -/

theorem filter (p : Tuple κ ν → Bool) : Headed ok okValue h (r.filter p) :=
  headed_of_spanned law hr.header_history (hr.history.filter p)
    (TrieSet.wellFormed_filter (lawfulOn_spanning law lawValue) (hr.spanned law lawValue) p)

theorem merge (hq : Headed ok okValue h q) (rule : MergeRule)
    (hmerged : (TrieSet.mk (rule.merge r.trie q.trie)).Reachable (ReachableWith ok okValue)) :
    Headed ok okValue h ⟨rule.merge r.trie q.trie⟩ :=
  headed_of_spanned law hr.header_history hmerged
    (rule.wellFormed_merge (lawfulOn_spanning law lawValue) (hr.spanned law lawValue)
      (hq.spanned law lawValue))

/-! Nested relations come and go. -/

variable [HoldsRelation κ ν] (holding : LawfulHolding ok okValue) {a : κ} (ha : ok a)

include holding ha

theorem nest (hx : x.Reachable ok) :
    Headed ok okValue ((h.difference x).insert a) (r.nest a x) := by
  have hwr := hr.history.wellFormed (TrieMap.lawfulOn_reachableWith law lawValue)
  have hwh := hr.header_history.wellFormed law
  have hwx := hx.wellFormed law
  refine headed_of_forall_spans law ((hr.header_history.difference hx).insert ha)
    (reachable_nest law lawValue holding hwr ha hwx) ?_
  intro u hu
  refine ⟨TrieSet.lawful_of_mem ((reachable_nest law lawValue holding hwr ha hwx).wellFormed
    (TrieMap.lawfulOn_reachableWith law lawValue)) hu, ?_⟩
  obtain ⟨e, he, rfl⟩ := exists_of_mem_nest law lawValue holding hwr ha hwx hu
  obtain ⟨t, ht, hkey⟩ := exists_of_mem_groupOutside law lawValue hwr hwx he
  obtain ⟨hokt, hspans⟩ := TrieSet.lawful_of_mem (hr.spanned law lawValue) ht
  have houtside := hspans.outside law hwh hwx (hokt.wellFormed law).trie
  rw [packed, hkey]
  exact houtside.insert law (TrieSet.wellFormed_difference law hwh hwx)
    ((reachableWith_outside law hwx hokt).wellFormed law).trie ha _

/-- If every tuple holds a relation under the attribute, and all nested tuples have one header. -/
theorem unnest (hg : g.Reachable ok)
    (hnested : ∀ t ∈ r.toList, ∃ q, nested? a t = some q ∧
      ∀ u ∈ q.toList, (TrieMap.keySet u == g) = true) :
    Headed ok okValue ((h.erase a).union g) (r.unnest (.unit a)) := by
  have hwr := hr.history.wellFormed (TrieMap.lawfulOn_reachableWith law lawValue)
  have hwh := hr.header_history.wellFormed law
  have hwg := hg.wellFormed law
  rw [unnest_unit]
  refine headed_of_forall_spans law ((hr.header_history.erase ha).union hg)
    (reachable_unnestOne law holding ha hwr) ?_
  intro u hu
  obtain ⟨t, ht, hu⟩ := mem_of_mem_unnestOne law lawValue holding ha hwr hu
  obtain ⟨hokt, hspans⟩ := TrieSet.lawful_of_mem (hr.spanned law lawValue) ht
  obtain ⟨q, hq, hkeys⟩ := hnested t ht
  refine ⟨reachableWith_of_mem_expansion law holding ha hokt u hu, ?_⟩
  rw [expansion_of_some hq] at hu
  obtain ⟨b, hb, rfl⟩ := List.mem_map.mp hu
  have hokb := TrieSet.lawful_of_mem (wellFormed_nested law holding ha hokt hq) hb
  have hspansb := (TrieMap.keySet_beq_iff_spans law hwg (hokb.wellFormed law).trie).mp (hkeys b hb)
  have herased := hspans.erase law hwh (hokt.wellFormed law).trie ha
  exact herased.update law (TrieSet.wellFormed_erase law hwh ha) hwg
    ((hokt.erase law ha).wellFormed law).trie (hokb.wellFormed law).trie hspansb

end Headed

end Relation

/-- **The operators keep headers.**  Rows that fit a header give a relation with that header, and
    from relations with one header each operator makes one again: a projection what the header has
    of the attributes, a join the union of the two, a nesting what is left of the header with the
    new attribute, an unnesting what is left of it with the header of the nested tuples.  Set
    operations on relations with one header keep it. -/
theorem operators_keep_headers {κ ν : Type} [BEq κ] [Hashed κ] [BEq ν] [Hashed ν]
    [HoldsRelation κ ν] {ok : κ → Prop} {okValue : ν → Prop} (law : LawfulOn ok)
    (lawValue : LawfulOn okValue) (holding : LawfulHolding ok okValue) :
    (∀ (header : List κ) (rows : List (List ν)), (∀ k ∈ header, ok k) →
      (∀ row ∈ rows, ∀ v ∈ row, okValue v) →
      ((∃ r, Relation.ofRows header rows = .ok r) ↔ ∀ row ∈ rows, row.length = header.length) ∧
      ∀ r, Relation.ofRows header rows = .ok r →
        Relation.Headed ok okValue (.ofList header) r) ∧
    (∀ (r : Relation κ ν) (h x : TrieSet κ), Relation.Headed ok okValue h r → x.Reachable ok →
      Relation.Headed ok okValue (h.intersection x) (r.project x)) ∧
    (∀ (s t : Relation κ ν) (hs ht : TrieSet κ), Relation.Headed ok okValue hs s →
      Relation.Headed ok okValue ht t →
      Relation.Headed ok okValue (hs.union ht) (s.join t)) ∧
    (∀ (r : Relation κ ν) (h x : TrieSet κ) (a : κ), Relation.Headed ok okValue h r →
      x.Reachable ok → ok a →
      Relation.Headed ok okValue ((h.difference x).insert a) (r.nest a x)) ∧
    (∀ (r : Relation κ ν) (h n : TrieSet κ) (a : κ), Relation.Headed ok okValue h r →
      n.Reachable ok → ok a →
      (∀ t ∈ r.toList, ∃ q, Relation.nested? a t = some q ∧
        ∀ u ∈ q.toList, (TrieMap.keySet u == n) = true) →
      Relation.Headed ok okValue ((h.erase a).union n) (r.unnest (.unit a))) ∧
    (∀ (r q : Relation κ ν) (h : TrieSet κ), Relation.Headed ok okValue h r →
      Relation.Headed ok okValue h q →
      Relation.Headed ok okValue h (r.union q) ∧
      Relation.Headed ok okValue h (r.intersection q) ∧
      Relation.Headed ok okValue h (r.difference q) ∧
      Relation.Headed ok okValue h (r.symmetricDifference q)) ∧
    ∀ (r : Relation κ ν) (h : TrieSet κ) (p : Tuple κ ν → Bool), Relation.Headed ok okValue h r →
      Relation.Headed ok okValue h (r.filter p) := by
  refine ⟨?rows, ?project, ?join, ?nest, ?unnest, ?sets, ?filter⟩
  case rows =>
    intro header rows hheader hrows
    refine ⟨?_, fun r hr => .of_ofRows law lawValue hheader hrows hr⟩
    simp only [Relation.ofRows, Relation.addRows_eq_ok_iff, exists_and_left, exists_eq, and_true]
  case project =>
    intro r h x hr hx
    exact hr.project law lawValue hx
  case join =>
    intro s t hs ht hheadeds hheadedt
    exact hheadeds.join law lawValue hheadedt
  case nest =>
    intro r h x a hr hx ha
    exact hr.nest law lawValue holding ha hx
  case unnest =>
    intro r h n a hr hn ha hnested
    exact hr.unnest law lawValue holding ha hn hnested
  case sets =>
    intro r q h hr hq
    exact ⟨hr.merge law lawValue hq .union (hr.history.union hq.history),
      hr.merge law lawValue hq .intersection (hr.history.intersection hq.history),
      hr.merge law lawValue hq .difference (hr.history.difference hq.history),
      hr.merge law lawValue hq .symmetricDifference (hr.history.symmetricDifference hq.history)⟩
  case filter =>
    intro r h p hr
    exact hr.filter law lawValue p

/-- A header that repeats a name; the attribute folded away leaves its name to the new one. -/
theorem operators_keep_headers_repeated :
    let header := ["a", "b", "a"]
    let rows : List (List Value) := [[.int 1, .int 2, .int 3], [.int 1, .int 4, .int 3]]
    let b : TrieSet String := .unit "b"
    ∃ r, Relation.ofRows header rows = .ok r ∧
      Relation.Headed (fun _ => True) Value.Built
        (((TrieSet.ofList header).difference b).insert "b") (r.nest "b" b) := by
  intro header rows b
  have hok : ∀ k ∈ header, True := fun _ _ => trivial
  have hbuilt : ∀ row ∈ rows, ∀ v ∈ row, Value.Built v := by
    simp only [rows, List.forall_mem_cons, List.not_mem_nil, false_imp_iff, implies_true, and_true]
    exact ⟨⟨.int 1, .int 2, .int 3⟩, .int 1, .int 4, .int 3⟩
  obtain ⟨hrows, -, -, hnest, -⟩ := operators_keep_headers (κ := String) lawfulOn_true
    Value.lawfulOn_built Value.lawfulHolding_built
  obtain ⟨hsome, hheaded⟩ := hrows header rows hok hbuilt
  obtain ⟨r, hr⟩ := hsome.mpr (by decide)
  exact ⟨r, hr, hnest r _ b "b" (hheaded r hr) (.unit trivial) trivial⟩

end TrieCollections
