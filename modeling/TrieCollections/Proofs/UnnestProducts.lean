/-
  TrieCollections/Proofs/UnnestProducts.lean
  ==========================================
  **Unnesting as a product.**  Between two attributes that are unnested stands a relation, and a
  relation is a set: whatever comes up twice is there once, and which one of equal tuples is kept
  is a matter of history.  This can be left out of account, as a relation comprises what its
  tuples come to, one tuple at a time (`comprises_foldl_unnestOne`).

  Where what is nested keeps apart, a tuple comes to its products, and so the relation comprises
  the products of all its tuples (`comprises_products`).  From under an empty relation nothing can
  be picked, so a tuple that holds one has no products and might as well not be there
  (`foldl_unnestOne_erase`).
-/
import TrieCollections.Proofs.TupleProducts

namespace TrieCollections

open TrieMap (ReachableWith)

namespace Relation

section Relations

variable {κ ν : Type} [BEq κ] [Hashed κ] [BEq ν] [Hashed ν] [HoldsRelation κ ν] {ok : κ → Prop}
  {okValue : ν → Prop}
  (law : LawfulOn ok) (lawValue : LawfulOn okValue) (holding : LawfulHolding ok okValue)
  {rel : Relation κ ν} {described : Tuple κ ν → Prop} {attrs : List κ}

include law lawValue holding

theorem reachable_foldl_unnestOne (hrel : rel.Reachable (ReachableWith ok okValue))
    (hattrs : ∀ a ∈ attrs, ok a) :
    (attrs.foldl unnestOne rel).Reachable (ReachableWith ok okValue) := by
  have lawTuple := TrieMap.lawfulOn_reachableWith law lawValue
  exact List.foldlRecOn
    (motive := fun out : Relation κ ν => out.Reachable (ReachableWith ok okValue)) attrs _ hrel
    fun _ hout a ha => reachable_unnestOne law holding (hattrs a ha) (hout.wellFormed lawTuple)

variable (hrel : rel.trie.WellFormed (ReachableWith ok okValue))

include hrel

theorem wellFormed_foldl_unnestOne (hattrs : ∀ a ∈ attrs, ok a) :
    (attrs.foldl unnestOne rel).trie.WellFormed (ReachableWith ok okValue) := by
  have lawTuple := TrieMap.lawfulOn_reachableWith law lawValue
  exact List.foldlRecOn
    (motive := fun out : Relation κ ν => out.trie.WellFormed (ReachableWith ok okValue)) attrs _
    hrel fun _ hout a ha => (reachable_unnestOne law holding (hattrs a ha) hout).wellFormed lawTuple

/-- Unnested, a relation comprises the expansions of whatever it comprises. -/
theorem comprises_unnestOne (h : rel.Comprises (ReachableWith ok okValue) described) {attr : κ}
    (hattr : ok attr) : (rel.unnestOne attr).Comprises (ReachableWith ok okValue)
      fun x => ∃ t, described t ∧ x ∈ expansion attr t := by
  have lawTuple := TrieMap.lawfulOn_reachableWith law lawValue
  refine ⟨?_, ?_⟩
  · rintro x ⟨t, ht, hx⟩
    exact reachableWith_of_mem_expansion law holding hattr (h.lawful t ht) x hx
  · intro x hx
    have hpass : ∀ t t', ReachableWith ok okValue t → ReachableWith ok okValue t' →
        (t == t') = true → (∃ y ∈ expansion attr t, (x == y) = true) →
          ∃ y ∈ expansion attr t', (x == y) = true := by
      rintro t t' hokt hokt' heq ⟨y, hy, hxy⟩
      obtain ⟨y', hy', hyy'⟩ :=
        exists_mem_expansion_of_beq law lawValue holding hattr hokt hokt' heq y hy
      exact ⟨y', hy', lawTuple.trans hx (reachableWith_of_mem_expansion law holding hattr hokt y hy)
        (reachableWith_of_mem_expansion law holding hattr hokt' y' hy') hxy hyy'⟩
    rw [contains_unnestOne law lawValue holding hattr hrel hx]
    constructor
    · rintro ⟨t, ht, hexpanded⟩
      obtain ⟨t', ht', heq⟩ := h.exists_of_mem lawTuple hrel ht
      obtain ⟨y, hy, hxy⟩ :=
        hpass t t' (TrieSet.lawful_of_mem hrel ht) (h.lawful t' ht') heq hexpanded
      exact ⟨y, ⟨t', ht', hy⟩, hxy⟩
    · rintro ⟨y, ⟨t, ht, hy⟩, hxy⟩
      obtain ⟨t', ht', heq⟩ := h.exists_mem lawTuple hrel ht
      exact ⟨t', ht', hpass t t' (h.lawful t ht) (TrieSet.lawful_of_mem hrel ht') heq ⟨y, hy, hxy⟩⟩

/-- **One attribute after the other, a relation comes to what its tuples come to.** -/
theorem comprises_foldl_unnestOne (h : rel.Comprises (ReachableWith ok okValue) described)
    (hattrs : ∀ a ∈ attrs, ok a) :
    (attrs.foldl unnestOne rel).Comprises (ReachableWith ok okValue)
      fun x => ∃ t, described t ∧ x ∈ expansions attrs t := by
  have lawTuple := TrieMap.lawfulOn_reachableWith law lawValue
  induction attrs generalizing rel described with
  | nil =>
    simpa [expansions] using h
  | cons attr attrs ih =>
    have hattr := hattrs attr List.mem_cons_self
    have hone := comprises_unnestOne law lawValue holding hrel h hattr
    have hrest := ih ((reachable_unnestOne law holding hattr hrel).wellFormed lawTuple) hone
      fun a ha => hattrs a (List.mem_cons_of_mem _ ha)
    have hsame : (fun x => ∃ t', (∃ t, described t ∧ t' ∈ expansion attr t) ∧
        x ∈ expansions attrs t') =
        fun x => ∃ t, described t ∧ x ∈ expansions (attr :: attrs) t := by
      funext x
      rw [eq_iff_iff]
      constructor
      · rintro ⟨t', ⟨t, ht, ht'⟩, hx⟩
        exact ⟨t, ht, List.mem_flatMap.mpr ⟨t', ht', hx⟩⟩
      · rintro ⟨t, ht, hx⟩
        obtain ⟨t', ht', hx⟩ := List.mem_flatMap.mp hx
        exact ⟨t', ⟨t, ht, ht'⟩, hx⟩
    exact hsame ▸ hrest

variable (hattrs : Distinct ok attrs) (hapart : ∀ t ∈ rel.toList, Apart ok attrs t)

include hattrs hapart

/-- **Unnested, a relation comprises the products of its tuples.** -/
theorem comprises_products : (attrs.foldl unnestOne rel).Comprises (ReachableWith ok okValue)
    fun u => ∃ t ∈ rel.toList, ∃ pick, Picks attrs t pick ∧ u = merged attrs t pick := by
  have lawTuple := TrieMap.lawfulOn_reachableWith law lawValue
  have hexpansions := comprises_foldl_unnestOne law lawValue holding hrel
    (TrieSet.comprises_toList lawTuple hrel) hattrs.lawful
  refine hexpansions.redescribe lawTuple ?_ ?_ ?_
  · rintro _ ⟨t, ht, pick, hpick, rfl⟩
    exact reachableWith_merged law holding hattrs (TrieSet.lawful_of_mem hrel ht) hpick
  · rintro x ⟨t, ht, hx⟩
    obtain ⟨pick, hpick, heq⟩ := exists_picks_of_mem_expansions law holding lawValue hattrs
      (TrieSet.lawful_of_mem hrel ht) (hapart t ht) hx
    exact ⟨_, ⟨t, ht, pick, hpick, rfl⟩, heq⟩
  · rintro _ ⟨t, ht, pick, hpick, rfl⟩
    obtain ⟨x, hx, heq⟩ := exists_mem_expansions_of_picks law holding lawValue hattrs
      (TrieSet.lawful_of_mem hrel ht) (hapart t ht) hpick
    exact ⟨x, ⟨t, ht, hx⟩, heq⟩

/-- **The attributes can be listed in any order**, and with equal ones in their places. -/
theorem foldl_unnestOne_beq {attrs' : List κ} (hattrs' : Distinct ok attrs')
    (hsame : ∀ k, ok k → attrs.any (k == ·) = attrs'.any (k == ·)) :
    (attrs'.foldl unnestOne rel == attrs.foldl unnestOne rel) = true := by
  have lawTuple := TrieMap.lawfulOn_reachableWith law lawValue
  have hsame' : ∀ k, ok k → attrs'.any (k == ·) = attrs.any (k == ·) :=
    fun k hk => (hsame k hk).symm
  have hokt : ∀ t ∈ rel.toList, ReachableWith ok okValue t := fun t ht =>
    TrieSet.lawful_of_mem hrel ht
  have hapart' : ∀ t ∈ rel.toList, Apart ok attrs' t := fun t ht =>
    (hapart t ht).relist law holding hattrs hattrs' hsame (hokt t ht)
  have hproducts := comprises_products law lawValue holding hrel hattrs hapart
  have hproducts' := comprises_products law lawValue holding hrel hattrs' hapart'
  refine (hproducts'.redescribe lawTuple hproducts.lawful ?_ ?_).beq lawTuple hproducts ?_ ?_
  · rintro _ ⟨t, ht, pick, hpick, rfl⟩
    obtain ⟨pick', hpick', heq⟩ := exists_merged_relisted law holding hattrs' hattrs hsame'
      (hokt t ht) hpick lawValue (hapart' t ht)
    exact ⟨_, ⟨t, ht, pick', hpick', rfl⟩, heq⟩
  · rintro _ ⟨t, ht, pick, hpick, rfl⟩
    obtain ⟨pick', hpick', heq⟩ := exists_merged_relisted law holding hattrs hattrs' hsame
      (hokt t ht) hpick lawValue (hapart t ht)
    exact ⟨_, ⟨t, ht, pick', hpick', rfl⟩, heq⟩
  · exact wellFormed_foldl_unnestOne law lawValue holding hrel hattrs'.lawful
  · exact wellFormed_foldl_unnestOne law lawValue holding hrel hattrs.lawful

/-- **A tuple that holds an empty relation adds nothing.** -/
theorem foldl_unnestOne_erase {t : Tuple κ ν} (ht : t ∈ rel.toList) {a : κ} (ha : a ∈ attrs)
    {q : Relation κ ν} (hq : nested? a t = some q) (hempty : q.isEmpty = true) :
    (attrs.foldl unnestOne (rel.erase t) == attrs.foldl unnestOne rel) = true := by
  have lawTuple := TrieMap.lawfulOn_reachableWith law lawValue
  have hokt := TrieSet.lawful_of_mem hrel ht
  have herase := TrieSet.wellFormed_erase lawTuple hrel hokt
  have hwq := wellFormed_nested law holding (hattrs.lawful a ha) hokt hq
  have hnone : ∀ x, x ∉ expansions attrs t := by
    intro x hx
    obtain ⟨pick, hpick, -⟩ :=
      exists_picks_of_mem_expansions law holding lawValue hattrs hokt (hapart t ht) hx
    have hpicked := hpick a ha q hq
    rw [(TrieSet.isEmpty_iff hwq).mp hempty] at hpicked
    exact List.not_mem_nil hpicked
  have hleft := comprises_foldl_unnestOne law lawValue holding herase
    (TrieSet.comprises_erase lawTuple hrel hokt) hattrs.lawful
  have hright := comprises_foldl_unnestOne law lawValue holding hrel
    (TrieSet.comprises_toList lawTuple hrel) hattrs.lawful
  have hrefl : ∀ x, (∃ t', t' ∈ rel.toList ∧ x ∈ expansions attrs t') → (x == x) = true :=
    fun x hx => lawTuple.refl (hright.lawful x hx)
  refine (hleft.redescribe lawTuple hright.lawful ?_ ?_).beq lawTuple hright
    (wellFormed_foldl_unnestOne law lawValue holding herase hattrs.lawful)
    (wellFormed_foldl_unnestOne law lawValue holding hrel hattrs.lawful)
  · rintro x ⟨t', ⟨ht', -⟩, hx⟩
    exact ⟨x, ⟨t', ht', hx⟩, hrefl x ⟨t', ht', hx⟩⟩
  · rintro x ⟨t', ht', hx⟩
    have hne : (t' == t) = false := by
      rw [Bool.eq_false_iff]
      intro heq
      rw [TrieSet.eq_of_mem_of_beq lawTuple hrel ht' ht heq] at hx
      exact hnone x hx
    exact ⟨x, ⟨t', ⟨ht', hne⟩, hx⟩, hrefl x ⟨t', ht', hx⟩⟩

end Relations

end Relation

/-- **Unnesting is a product.**  Let what is nested in each tuple keep apart.  Then the result has
    exactly the tuples without the attributes that hold a relation, each merged with one nested
    tuple from under every such attribute.  A merged tuple has what each nested one has, and where
    they have nothing, what is left of the tuple.  So a tuple that holds an empty relation adds
    nothing, plain values stay, and the attributes can be unnested in any order. -/
theorem unnest_product {κ ν : Type} [BEq κ] [Hashed κ] [BEq ν] [Hashed ν] [HoldsRelation κ ν]
    {ok : κ → Prop} {okValue : ν → Prop} (law : LawfulOn ok) (lawValue : LawfulOn okValue)
    (holding : LawfulHolding ok okValue) {rel : Relation κ ν}
    (hrel : rel.Reachable (ReachableWith ok okValue)) {attrs : TrieSet κ}
    (hattrs : attrs.Reachable ok)
    (hapart : ∀ t ∈ rel.toList, Relation.Apart ok attrs.toList t) :
    (rel.unnest attrs).Reachable (ReachableWith ok okValue) ∧
    (∀ u, ReachableWith ok okValue u →
      ((rel.unnest attrs).contains u = true ↔
        ∃ t ∈ rel.toList, ∃ pick, Relation.Picks attrs.toList t pick ∧
          (u == Relation.merged attrs.toList t pick) = true)) ∧
    (∀ t ∈ rel.toList, ∀ a ∈ attrs.toList, ∀ q, Relation.nested? a t = some q →
      q.isEmpty = true → (Relation.unnest (rel.erase t) attrs == rel.unnest attrs) = true) ∧
    (∀ t ∈ rel.toList, ∀ pick, Relation.Picks attrs.toList t pick → ∀ k, ok k → ∀ v,
      TrieMap.get? t k = some v →
      (attrs.contains k = true → (HoldsRelation.asRelation? v : Option (Relation κ ν)) = none) →
        (Relation.merged attrs.toList t pick).get? k = some v) ∧
    (∀ t ∈ rel.toList, ∀ pick, Relation.Picks attrs.toList t pick → ∀ k, ok k →
      (∀ a ∈ Relation.held attrs.toList t, TrieMap.contains (pick a) k = true →
        (Relation.merged attrs.toList t pick).get? k = TrieMap.get? (pick a) k) ∧
      ((∀ a ∈ Relation.held attrs.toList t, TrieMap.contains (pick a) k = false) →
        (Relation.merged attrs.toList t pick).get? k =
          if (Relation.held attrs.toList t).any (k == ·) then none else TrieMap.get? t k)) ∧
    (∀ names : List κ, names.Perm attrs.toList →
      (names.foldl Relation.unnestOne rel == rel.unnest attrs) = true) ∧
    ∀ attrs' : TrieSet κ, attrs'.Reachable ok → (attrs' == attrs) = true →
      (rel.unnest attrs' == rel.unnest attrs) = true := by
  have lawTuple := TrieMap.lawfulOn_reachableWith law lawValue
  have hwr := hrel.wellFormed lawTuple
  have hwa := hattrs.wellFormed law
  have hlisted := TrieSet.distinct_toList law hwa
  refine ⟨?reachable, ?products, ?empty, ?plain, ?merged, ?ordered, ?equal⟩
  case reachable =>
    exact Relation.reachable_foldl_unnestOne law lawValue holding hrel hlisted.lawful
  case products =>
    intro u hu
    have hproducts := Relation.comprises_products law lawValue holding hwr hlisted hapart
    refine (hproducts.contains_iff u hu).trans ?_
    constructor
    · rintro ⟨_, ⟨t, ht, pick, hpick, rfl⟩, heq⟩
      exact ⟨t, ht, pick, hpick, heq⟩
    · rintro ⟨t, ht, pick, hpick, heq⟩
      exact ⟨_, ⟨t, ht, pick, hpick, rfl⟩, heq⟩
  case empty =>
    intro t ht a ha q hq hempty
    exact Relation.foldl_unnestOne_erase law lawValue holding hwr hlisted hapart ht ha hq hempty
  case plain =>
    intro t ht pick hpick k hk v hv hplain
    rw [← TrieSet.any_toList law hwa hk] at hplain
    exact Relation.get?_merged_of_plain law holding hlisted (TrieSet.lawful_of_mem hwr ht)
      (hapart t ht) hpick hk hv hplain
  case merged =>
    intro t ht pick hpick k hk
    have hokt := TrieSet.lawful_of_mem hwr ht
    refine ⟨?_, ?_⟩
    · intro a ha hhas
      exact Relation.get?_merged_of_contains law holding hlisted hokt (hapart t ht) hpick hk ha hhas
    · intro hlacks
      exact Relation.get?_merged_of_lacks law holding hlisted hokt hpick hk hlacks
  case ordered =>
    intro names hperm
    exact Relation.foldl_unnestOne_beq law lawValue holding hwr hlisted hapart
      (hlisted.perm law hperm) fun k _ => hperm.symm.any_eq
  case equal =>
    intro attrs' hattrs' heq
    have hwa' := hattrs'.wellFormed law
    refine Relation.foldl_unnestOne_beq law lawValue holding hwr hlisted hapart
      (TrieSet.distinct_toList law hwa') ?_
    intro k hk
    rw [TrieSet.any_toList law hwa hk, TrieSet.any_toList law hwa' hk,
      (TrieSet.beq_iff_contains law hwa' hwa).mp heq k hk]

/-- One tuple holds two relations next to a plain value.  Another has a plain value where the first
    one holds a relation, and holds an empty relation besides. -/
theorem unnest_product_mixed :
    let ps : Relation String Value := .ofList [.unit "x" (.int 1), .unit "x" (.int 2)]
    let qs : Relation String Value := .ofList [.unit "y" (.int 3)]
    let t : Tuple String Value := .ofList [("p", .relation ps), ("q", .relation qs), ("r", .int 5)]
    let u : Tuple String Value := .ofList [("p", .int 7), ("q", .relation .empty)]
    let rel : Relation String Value := .ofList [t, u]
    let attrs : TrieSet String := .ofList ["p", "q"]
    rel.Reachable Value.BuiltTuple ∧
    (∀ w ∈ rel.toList, Relation.Apart (fun _ => True) attrs.toList w) ∧
    (rel.unnest attrs).Reachable Value.BuiltTuple ∧
    (∀ w, Value.BuiltTuple w →
      ((rel.unnest attrs).contains w = true ↔
        ∃ t ∈ rel.toList, ∃ pick, Relation.Picks attrs.toList t pick ∧
          (w == Relation.merged attrs.toList t pick) = true)) ∧
    (∀ w ∈ rel.toList, ∀ a ∈ attrs.toList, ∀ q, Relation.nested? a w = some q →
      q.isEmpty = true → (Relation.unnest (rel.erase w) attrs == rel.unnest attrs) = true) ∧
    (∀ w ∈ rel.toList, ∀ pick, Relation.Picks attrs.toList w pick → ∀ k, True → ∀ v,
      TrieMap.get? w k = some v →
      (attrs.contains k = true → (HoldsRelation.asRelation? v : Option (Relation String Value)) =
        none) → (Relation.merged attrs.toList w pick).get? k = some v) ∧
    (∀ w ∈ rel.toList, ∀ pick, Relation.Picks attrs.toList w pick → ∀ k, True →
      (∀ a ∈ Relation.held attrs.toList w, TrieMap.contains (pick a) k = true →
        (Relation.merged attrs.toList w pick).get? k = TrieMap.get? (pick a) k) ∧
      ((∀ a ∈ Relation.held attrs.toList w, TrieMap.contains (pick a) k = false) →
        (Relation.merged attrs.toList w pick).get? k =
          if (Relation.held attrs.toList w).any (k == ·) then none else TrieMap.get? w k)) ∧
    (∀ names : List String, names.Perm attrs.toList →
      (names.foldl Relation.unnestOne rel == rel.unnest attrs) = true) ∧
    ∀ attrs' : TrieSet String, attrs'.Reachable (fun _ => True) → (attrs' == attrs) = true →
      (rel.unnest attrs' == rel.unnest attrs) = true := by
  intro ps qs t u rel attrs
  have law : LawfulOn fun _ : String => True := lawfulOn_true
  have lawTuple := Value.lawfulOn_builtTuple
  have hinner : ∀ name i, Value.BuiltTuple (.unit name (.int i)) := fun name i =>
    Value.builtTuple_unit name (.int i)
  have hps : ∀ x ∈ [TrieMap.unit "x" (Value.int 1), .unit "x" (.int 2)], Value.BuiltTuple x := by
    simp [hinner]
  have hqs : ∀ x ∈ [TrieMap.unit "y" (Value.int 3)], Value.BuiltTuple x := by
    simp [hinner]
  have hp : Value.Built (.relation ps) := Value.built_relation (.ofList hps)
  have hq : Value.Built (.relation qs) := Value.built_relation (.ofList hqs)
  have ht : Value.BuiltTuple t := .ofList law (by simp [hp, hq, Value.Built.int])
  have hu : Value.BuiltTuple u :=
    .ofList law (by simp [Value.built_relation .empty, Value.Built.int])
  have htu : ∀ w ∈ [t, u], Value.BuiltTuple w := by
    simp [ht, hu]
  have hrel : rel.Reachable Value.BuiltTuple := .ofList htu
  have hattrs : attrs.Reachable fun _ => True := .ofList fun _ _ => trivial
  have hmembers : ∀ w ∈ rel.toList, w = t ∨ w = u := by
    intro w hw
    simpa using TrieSet.mem_of_mem_ofList lawTuple htu hw
  have hlisted : ∀ a ∈ attrs.toList, a = "p" ∨ a = "q" := by
    intro a ha
    simpa using TrieSet.mem_of_mem_ofList law (fun _ _ => trivial) ha
  have hkeys : ∀ (es : List (String × Value)) (k : String),
      TrieMap.contains (TrieMap.ofList es) k = (es.map Prod.fst).any (k == ·) :=
    fun es k => TrieMap.contains_ofList law (fun _ _ => trivial) trivial
  have hvalue : ∀ (es : List (String × Value)) (k : String),
      TrieMap.get? (TrieMap.ofList es) k = (es.reverse.find? (k == ·.1)).map (·.2) :=
    fun es k => TrieMap.get?_ofList law (fun _ _ => trivial) trivial
  have hone : ∀ (name : String) (i : Int64) (k : String),
      TrieMap.contains (TrieMap.unit name (Value.int i)) k = (k == name) := by
    intro name i k
    rw [TrieMap.contains, TrieMap.get?_unit law trivial trivial]
    cases k == name <;> rfl
  -- every nested tuple has one attribute, which goes with the one it is nested under
  let inside : String → String := fun a => if a = "p" then "x" else "y"
  have hinside : ∀ w ∈ rel.toList, ∀ a ∈ attrs.toList, ∀ r, Relation.nested? a w = some r →
      ∀ x ∈ r.toList, ∀ k, TrieMap.contains x k = (k == inside a) := by
    intro w hw a ha r hr x hx k
    rcases hmembers w hw with rfl | rfl <;> rcases hlisted a ha with rfl | rfl <;>
      rw [Relation.nested?, hvalue] at hr
    · obtain rfl : ps = r := Option.some.inj hr
      rcases List.mem_pair.mp (TrieSet.mem_of_mem_ofList lawTuple hps hx) with rfl | rfl <;>
        exact hone "x" _ k
    · obtain rfl : qs = r := Option.some.inj hr
      rw [List.mem_singleton.mp (TrieSet.mem_of_mem_ofList lawTuple hqs hx)]
      exact hone "y" 3 k
    · cases hr
    · obtain rfl : TrieSet.empty = r := Option.some.inj hr
      exact absurd hx List.not_mem_nil
  have houtside : ∀ w ∈ rel.toList, ∀ k, TrieMap.contains w k = true → k ∈ ["p", "q", "r"] := by
    intro w hw k hk
    rcases hmembers w hw with rfl | rfl <;> rw [hkeys] at hk
    · simpa using hk
    · obtain rfl | rfl : k = "p" ∨ k = "q" := by simpa using hk
      · decide
      · decide
  have hapart : ∀ w ∈ rel.toList, Relation.Apart (fun _ => True) attrs.toList w := by
    intro w hw
    have hin := hinside w hw
    refine ⟨?_, ?_, ?_⟩
    · intro a ha r hr x hx k _
      rw [hin a ha r hr x hx, Bool.and_eq_false_iff, or_iff_not_imp_left, Bool.not_eq_false]
      intro hk
      rw [Bool.eq_false_iff]
      intro hcontains
      have hmem := houtside w hw k hcontains
      rw [eq_of_beq hk] at hmem
      revert hmem
      rcases hlisted a ha with rfl | rfl <;> decide
    · intro a ha r hr x hx b hb
      rw [hin a ha r hr x hx]
      rcases hlisted a ha with rfl | rfl <;> rcases hlisted b hb with rfl | rfl <;> decide
    · intro a ha b hb hne r q hr hq x hx y hy k _
      rw [hin a ha r hr x hx, hin b hb q hq y hy, Bool.and_eq_false_iff, or_iff_not_imp_left,
        Bool.not_eq_false]
      intro hk
      rw [eq_of_beq hk]
      revert hne
      rcases hlisted a ha with rfl | rfl <;> rcases hlisted b hb with rfl | rfl <;> decide
  exact ⟨hrel, hapart, unnest_product law Value.lawfulOn_built Value.lawfulHolding_built hrel
    hattrs hapart⟩

end TrieCollections
