/-
  TrieCollections/Proofs/UnnestOrder.lean
  =======================================
  **When the order of unnesting makes no difference.**  A nested tuple is put on the outer one
  and overwrites what it finds there.  If the tuples nested under two attributes share an
  attribute, the one that is unnested last is seen in the result, and if a nested tuple has the
  other attribute, it hides the relation that stood there or brings in a new one.  So in general
  the order matters (`unnest_order_matters`).

  It does not matter where what stands under the two attributes keeps clear of each other
  (`Independent`):

    * After an expansion, the other attribute holds what the nested tuple has there, and else
      what the outer one had (`nested?_update_erase`).  So it is the same relation that is
      unnested in either order, or none.
    * Two nested tuples that match can be put on in either order (`swap_beq`).

  With one step for a single tuple (`exists_mem_expansions_swap`) the rest is that two unnestings
  give the expansions of the expansions.
-/
import TrieCollections.Proofs.Expansions
import TrieCollections.Proofs.TupleParts

namespace TrieCollections

open TrieMap (ReachableWith Matches)

namespace Relation

variable {κ ν : Type} [BEq κ] [Hashed κ] [BEq ν] [Hashed ν] [HoldsRelation κ ν] {ok : κ → Prop}
  {okValue : ν → Prop}

/-- What a tuple holds under two attributes keeps clear of each other.  If it holds a relation under
    one of them only, no nested tuple brings in one under the other.  If it holds a relation under
    both, no nested tuple has the other attribute, and tuples nested under the two match. -/
structure Independent (ok : κ → Prop) (attr attr' : κ) (t : Tuple κ ν) : Prop where
  left_only : ∀ r, nested? attr t = some r → nested? attr' t = none →
    ∀ a ∈ r.toList, nested? attr' a = none
  right_only : ∀ q, nested? attr t = none → nested? attr' t = some q →
    ∀ b ∈ q.toList, nested? attr b = none
  left_lacks : ∀ r q, nested? attr t = some r → nested? attr' t = some q →
    ∀ a ∈ r.toList, TrieMap.contains a attr' = false
  right_lacks : ∀ r q, nested? attr t = some r → nested? attr' t = some q →
    ∀ b ∈ q.toList, TrieMap.contains b attr = false
  agree : ∀ r q, nested? attr t = some r → nested? attr' t = some q →
    ∀ a ∈ r.toList, ∀ b ∈ q.toList, Matches ok a b

section Tuples

variable (law : LawfulOn ok) {attr attr' : κ} (hattr : ok attr) (hattr' : ok attr')
  {t a b : Tuple κ ν}

include law hattr

omit [BEq ν] [HoldsRelation κ ν] in
/-- Under each attribute stands what the nested tuple has there, or else what the outer one has. -/
theorem get?_update_erase (ht : t.trie.WellFormed ok) (ha : a.trie.WellFormed ok) {k : κ}
    (hk : ok k) : ((TrieMap.erase t attr).update a).get? k =
      (TrieMap.get? a k).or (if k == attr then none else TrieMap.get? t k) := by
  rw [TrieMap.get?_update law (TrieMap.wellFormed_erase law ht hattr) ha hk,
    TrieMap.get?_erase law ht hattr hk]

include hattr'

omit [BEq ν] in
/-- The other attribute holds what the nested tuple has there, and else what the outer one has. -/
theorem nested?_update_erase (ht : t.trie.WellFormed ok) (ha : a.trie.WellFormed ok)
    (hne : (attr' == attr) = false) :
    nested? attr' ((TrieMap.erase t attr).update a) =
      if TrieMap.contains a attr' then nested? attr' a else nested? attr' t := by
  rw [nested?, get?_update_erase law hattr ht ha hattr', hne, TrieMap.contains, nested?, nested?]
  cases TrieMap.get? a attr' <;> rfl

omit [BEq ν] in
theorem nested?_of_lacks (ht : t.trie.WellFormed ok) (ha : a.trie.WellFormed ok)
    (hne : (attr' == attr) = false) (hlacks : TrieMap.contains a attr' = false) :
    nested? attr' ((TrieMap.erase t attr).update a) = nested? attr' t := by
  rw [nested?_update_erase law hattr hattr' ht ha hne, hlacks]
  rfl

omit [BEq ν] in
theorem nested?_of_none (ht : t.trie.WellFormed ok) (ha : a.trie.WellFormed ok)
    (hne : (attr' == attr) = false) (houter : nested? attr' t = none)
    (hinner : nested? attr' a = none) :
    nested? attr' ((TrieMap.erase t attr).update a) = none := by
  rw [nested?_update_erase law hattr hattr' ht ha hne, houter, hinner, ite_self]

/-- A single tuple that holds a single one under either attribute. -/
theorem unnestOne_unnestOne_unit (ht : t.trie.WellFormed ok) (ha : a.trie.WellFormed ok)
    (hne : (attr' == attr) = false) (hlacks : TrieMap.contains a attr' = false)
    (hleft : nested? attr t = some (.unit a)) (hright : nested? attr' t = some (.unit b)) :
    (unnestOne (.unit t) attr).unnestOne attr' =
      .unit ((TrieMap.erase ((TrieMap.erase t attr).update a) attr').update b) := by
  rw [unnestOne_unit hleft, unnestOne_unit]
  rw [nested?_of_lacks law hattr hattr' ht ha hne hlacks, hright]

omit [BEq ν] [HoldsRelation κ ν] in
/-- What stands under an attribute after two nested tuples were put on, the first of which does not
    have the attribute that is taken away for the second. -/
theorem get?_update_erase_twice (ht : t.trie.WellFormed ok) (ha : a.trie.WellFormed ok)
    (hb : b.trie.WellFormed ok) (hlacks : TrieMap.contains a attr' = false) {k : κ} (hk : ok k) :
    ((TrieMap.erase ((TrieMap.erase t attr).update a) attr').update b).get? k =
      (TrieMap.get? b k).or ((TrieMap.get? a k).or
        (if k == attr || k == attr' then none else TrieMap.get? t k)) := by
  have hfirst := TrieMap.wellFormed_update law (TrieMap.wellFormed_erase law ht hattr) ha
  rw [get?_update_erase law hattr' hfirst hb hk, get?_update_erase law hattr ht ha hk]
  by_cases hka : (k == attr') = true
  · rw [TrieMap.contains, Option.isSome_eq_false_iff, Option.isNone_iff_eq_none] at hlacks
    rw [TrieMap.get?_congr law ha hk hattr' hka, hlacks, hka]
    simp
  · simp [hka]

variable (lawValue : LawfulOn okValue) (ht : ReachableWith ok okValue t)

include lawValue ht

omit [HoldsRelation κ ν] in
/-- **Two nested tuples that match can be put on in either order.** -/
theorem swap_beq (ha : ReachableWith ok okValue a) (hb : ReachableWith ok okValue b)
    (halacks : TrieMap.contains a attr' = false) (hblacks : TrieMap.contains b attr = false)
    (hmatch : Matches ok a b) :
    ((TrieMap.erase ((TrieMap.erase t attr).update a) attr').update b ==
      (TrieMap.erase ((TrieMap.erase t attr').update b) attr).update a) = true := by
  have hab := (((ht.erase law hattr).update law ha).erase law hattr').update law hb
  have hba := (((ht.erase law hattr').update law hb).erase law hattr).update law ha
  have hwt := ht.wellFormed law
  have hwa := ha.wellFormed law
  have hwb := hb.wellFormed law
  rw [TrieMap.beq_iff_agree law (hab.wellFormed law) (hba.wellFormed law) lawValue]
  intro k hk
  rw [get?_update_erase_twice law hattr hattr' hwt.trie hwa.trie hwb.trie halacks hk,
    get?_update_erase_twice law hattr' hattr hwt.trie hwb.trie hwa.trie hblacks hk,
    Bool.or_comm (k == attr')]
  rcases hv : TrieMap.get? a k with _ | v <;> rcases hw : TrieMap.get? b k with _ | w
  · cases (k == attr || k == attr')
    · rcases hx : TrieMap.get? t k with _ | x
      · exact .none
      · exact .some (lawValue.refl (hwt.okValue_of_get? law hk hx))
    · exact .none
  · exact .some (lawValue.refl (hwb.okValue_of_get? law hk hw))
  · exact .some (lawValue.refl (hwa.okValue_of_get? law hk hv))
  · exact .some (lawValue.symm (hwa.okValue_of_get? law hk hv) (hwb.okValue_of_get? law hk hw)
      (hmatch k hk v w hv hw))

theorem Independent.symm (holding : LawfulHolding ok okValue) (h : Independent ok attr attr' t) :
    Independent ok attr' attr t := by
  refine ⟨fun q hq hr => h.right_only q hr hq, fun r hq hr => h.left_only r hr hq,
    fun q r hq hr => h.right_lacks r q hr hq, fun q r hq hr => h.left_lacks r q hr hq, ?_⟩
  intro q r hq hr b hb a ha k hk w v hw hv
  have hoka := TrieSet.lawful_of_mem (wellFormed_nested law holding hattr ht hr) ha
  have hokb := TrieSet.lawful_of_mem (wellFormed_nested law holding hattr' ht hq) hb
  exact lawValue.symm ((hoka.wellFormed law).okValue_of_get? law hk hv)
    ((hokb.wellFormed law).okValue_of_get? law hk hw) (h.agree r q hr hq a ha b hb k hk v w hv hw)

/-- **One tuple unnested in either order**: what comes out in the one order comes out in the
    other. -/
theorem exists_mem_expansions_swap (holding : LawfulHolding ok okValue)
    (hne : (attr == attr') = false) (h : Independent ok attr attr' t) {x y : Tuple κ ν}
    (hx : x ∈ expansion attr t) (hy : y ∈ expansion attr' x) :
    ∃ x' ∈ expansion attr' t, ∃ y' ∈ expansion attr x', (y == y') = true := by
  have lawTuple := TrieMap.lawfulOn_reachableWith law lawValue
  have hne' : (attr' == attr) = false := by rw [law.beq_comm hattr' hattr, hne]
  have hwt := (ht.wellFormed law).trie
  have hokx := reachableWith_of_mem_expansion law holding hattr ht x hx
  have hrefl := lawTuple.refl (reachableWith_of_mem_expansion law holding hattr' hokx y hy)
  have hnested : ∀ r, nested? attr t = some r → ∀ a ∈ r.toList, ReachableWith ok okValue a :=
    fun r hr a ha => TrieSet.lawful_of_mem (wellFormed_nested law holding hattr ht hr) ha
  have hnested' : ∀ q, nested? attr' t = some q → ∀ b ∈ q.toList, ReachableWith ok okValue b :=
    fun q hq b hb => TrieSet.lawful_of_mem (wellFormed_nested law holding hattr' ht hq) hb
  rcases hr : nested? attr t with _ | r <;> rcases hq : nested? attr' t with _ | q
  case none.none =>
    rw [expansion_of_none hr, List.mem_singleton] at hx
    rw [hx, expansion_of_none hq, List.mem_singleton] at hy
    exact ⟨t, mem_expansion_self hq, t, mem_expansion_self hr, hy ▸ hrefl⟩
  case none.some =>
    rw [expansion_of_none hr, List.mem_singleton] at hx
    rw [hx] at hy
    refine ⟨y, hy, y, ?_, hrefl⟩
    rw [expansion_of_some hq] at hy
    obtain ⟨b, hb, rfl⟩ := List.mem_map.mp hy
    exact mem_expansion_self (nested?_of_none law hattr' hattr hwt
      ((hnested' q hq b hb).wellFormed law).trie hne hr (h.right_only q hr hq b hb))
  case some.none =>
    rw [expansion_of_some hr] at hx
    obtain ⟨a, ha, rfl⟩ := List.mem_map.mp hx
    have hkept := nested?_of_none law hattr hattr' hwt ((hnested r hr a ha).wellFormed law).trie
      hne' hq (h.left_only r hr hq a ha)
    rw [expansion_of_none hkept, List.mem_singleton] at hy
    exact ⟨t, mem_expansion_self hq, y, hy ▸ update_mem_expansion hr ha, hrefl⟩
  case some.some =>
    rw [expansion_of_some hr] at hx
    obtain ⟨a, ha, rfl⟩ := List.mem_map.mp hx
    have hoka := hnested r hr a ha
    have halacks := h.left_lacks r q hr hq a ha
    have hkept := nested?_of_lacks law hattr hattr' hwt (hoka.wellFormed law).trie hne' halacks
    rw [expansion_of_some (hkept.trans hq)] at hy
    obtain ⟨b, hb, rfl⟩ := List.mem_map.mp hy
    have hokb := hnested' q hq b hb
    have hblacks := h.right_lacks r q hr hq b hb
    have hkept' := nested?_of_lacks law hattr' hattr hwt (hokb.wellFormed law).trie hne hblacks
    exact ⟨_, update_mem_expansion hq hb, _, update_mem_expansion (hkept'.trans hr) ha,
      swap_beq law hattr hattr' lawValue ht hoka hokb halacks hblacks
        (h.agree r q hr hq a ha b hb)⟩

end Tuples

section Relations

variable (law : LawfulOn ok) (lawValue : LawfulOn okValue) (holding : LawfulHolding ok okValue)
  {rel : Relation κ ν} (hrel : rel.trie.WellFormed (ReachableWith ok okValue)) {attr attr' : κ}
  (hattr : ok attr) (hattr' : ok attr') (hne : (attr == attr') = false)

include law lawValue holding hrel hattr hattr' hne

/-- What two unnestings give, they give in the other order too. -/
theorem contains_swap_of_contains (h : ∀ t ∈ rel.toList, Independent ok attr attr' t)
    {r : Tuple κ ν} (hr : ReachableWith ok okValue r)
    (hcontains : ((rel.unnestOne attr).unnestOne attr').contains r = true) :
    ((rel.unnestOne attr').unnestOne attr).contains r = true := by
  have lawTuple := TrieMap.lawfulOn_reachableWith law lawValue
  rw [contains_unnestOne_unnestOne law lawValue holding hattr hrel hattr' hr] at hcontains
  rw [contains_unnestOne_unnestOne law lawValue holding hattr' hrel hattr hr]
  obtain ⟨t, ht, x, hx, y, hy, heq⟩ := hcontains
  have hokt := TrieSet.lawful_of_mem hrel ht
  obtain ⟨x', hx', y', hy', hyy'⟩ :=
    exists_mem_expansions_swap law hattr hattr' lawValue hokt holding hne (h t ht) hx hy
  have hokx := reachableWith_of_mem_expansion law holding hattr hokt x hx
  have hoky := reachableWith_of_mem_expansion law holding hattr' hokx y hy
  have hokx' := reachableWith_of_mem_expansion law holding hattr' hokt x' hx'
  have hoky' := reachableWith_of_mem_expansion law holding hattr hokx' y' hy'
  exact ⟨t, ht, x', hx', y', hy', lawTuple.trans hr hoky hoky' heq hyy'⟩

theorem unnestOne_comm (h : ∀ t ∈ rel.toList, Independent ok attr attr' t) :
    ((rel.unnestOne attr).unnestOne attr' == (rel.unnestOne attr').unnestOne attr) = true := by
  have lawTuple := TrieMap.lawfulOn_reachableWith law lawValue
  have hne' : (attr' == attr) = false := by rw [law.beq_comm hattr' hattr, hne]
  have hsymm : ∀ t ∈ rel.toList, Independent ok attr' attr t := fun t ht =>
    (h t ht).symm law hattr hattr' lawValue (TrieSet.lawful_of_mem hrel ht) holding
  have hfirst := (reachable_unnestOne law holding hattr hrel).wellFormed lawTuple
  have hfirst' := (reachable_unnestOne law holding hattr' hrel).wellFormed lawTuple
  rw [TrieSet.beq_iff_contains lawTuple
    ((reachable_unnestOne law holding hattr' hfirst).wellFormed lawTuple)
    ((reachable_unnestOne law holding hattr hfirst').wellFormed lawTuple)]
  intro r hr
  rw [Bool.eq_iff_iff]
  constructor
  · exact contains_swap_of_contains law lawValue holding hrel hattr hattr' hne h hr
  · exact contains_swap_of_contains law lawValue holding hrel hattr' hattr hne' hsymm hr

end Relations

end Relation

/-- **Attributes can be unnested in either order where what stands under them keeps clear of each
    other.**  No nested tuple may bring in a relation under the other attribute, or hide the one
    there, and tuples nested under the two must agree on the attributes that both have. -/
theorem unnest_comm_of_independent {rel : Relation String Value}
    (hrel : rel.Reachable Value.BuiltTuple) {p q : String}
    (h : ∀ t ∈ rel.toList, Relation.Independent (fun _ => True) p q t) :
    ((rel.unnest (.unit p)).unnest (.unit q) ==
      (rel.unnest (.unit q)).unnest (.unit p)) = true := by
  have law : LawfulOn fun _ : String => True := lawfulOn_true
  have holding := Value.lawfulHolding_built
  have lawTuple := Value.lawfulOn_builtTuple
  have hwr := hrel.wellFormed lawTuple
  simp only [Relation.unnest_unit]
  by_cases hpq : p = q
  · subst hpq
    have hfirst : (rel.unnestOne p).Reachable Value.BuiltTuple :=
      Relation.reachable_unnestOne law holding trivial hwr
    have hsecond : ((rel.unnestOne p).unnestOne p).Reachable Value.BuiltTuple :=
      Relation.reachable_unnestOne law holding trivial (hfirst.wellFormed lawTuple)
    exact (TrieSet.lawfulOn lawTuple).refl (hsecond.wellFormed lawTuple)
  · exact Relation.unnestOne_comm law Value.lawfulOn_built holding hwr trivial trivial
      (beq_false_of_ne hpq) h

/-- Under both attributes stands one and the same relation, so the nested tuples share an attribute
    and agree there. -/
theorem unnest_comm_of_independent_shared :
    let inner : Tuple String Value := .unit "x" (.int 1)
    let t : Tuple String Value :=
      (TrieMap.unit "p" (.relation (.unit inner))).insert "q" (.relation (.unit inner))
    let rel : Relation String Value := .unit t
    (∀ u ∈ rel.toList, Relation.Independent (fun _ => True) "p" "q" u) ∧
      ((rel.unnest (.unit "p")).unnest (.unit "q") ==
        (rel.unnest (.unit "q")).unnest (.unit "p")) = true := by
  intro inner t rel
  have law : LawfulOn fun _ : String => True := lawfulOn_true
  have hinner := Value.builtTuple_unit "x" (.int 1)
  have hheld := Value.built_relation (.unit hinner)
  have hone := Value.builtTuple_unit "p" hheld
  have ht : Value.BuiltTuple t := hone.insert law trivial hheld
  have hnested : ∀ name r, Relation.nested? name t = some r → r = .unit inner := by
    intro name r hr
    rw [Relation.nested?_insert law (hone.wellFormed law).trie trivial trivial, TrieMap.unit,
      Relation.nested?_insert law TrieMap.wellFormed_empty trivial trivial] at hr
    split at hr
    · exact (Option.some.inj hr).symm
    · split at hr
      · exact (Option.some.inj hr).symm
      · cases hr
  have hall : ∀ name r, Relation.nested? name t = some r → ∀ a ∈ r.toList, a = inner := by
    intro name r hr a ha
    rw [hnested name r hr, TrieSet.toList_unit] at ha
    exact List.mem_singleton.mp ha
  have hlacks : ∀ name, name ≠ "x" → TrieMap.get? inner name = none := by
    intro name hname
    rw [TrieMap.get?_unit law trivial trivial, if_neg (by simpa using hname)]
  have hindependent : ∀ u ∈ rel.toList, Relation.Independent (fun _ => True) "p" "q" u := by
    intro u hu
    obtain rfl : u = t := List.mem_singleton.mp ((TrieSet.toList_unit t) ▸ hu)
    refine ⟨?_, ?_, ?_, ?_, ?_⟩
    · intro r hr _ a ha
      rw [hall _ r hr a ha, Relation.nested?, hlacks "q" (by decide), Option.bind_none]
    · intro q _ hq b hb
      rw [hall _ q hq b hb, Relation.nested?, hlacks "p" (by decide), Option.bind_none]
    · intro r _ hr _ a ha
      rw [hall _ r hr a ha, TrieMap.contains, hlacks "q" (by decide), Option.isSome_none]
    · intro _ q _ hq b hb
      rw [hall _ q hq b hb, TrieMap.contains, hlacks "p" (by decide), Option.isSome_none]
    · intro r q hr hq a ha b hb k _ v w hv hw
      rw [hall _ r hr a ha] at hv
      rw [hall _ q hq b hb, hv] at hw
      rw [← Option.some.inj hw]
      exact Value.lawfulOn_built.refl ((hinner.wellFormed law).okValue_of_get? law trivial hv)
  exact ⟨hindependent, unnest_comm_of_independent (.unit ht) hindependent⟩

/-- **In general the order matters.**  The tuples nested under the two attributes both have `x`, and
    the value of the one unnested last is what remains. -/
theorem unnest_order_matters :
    let held (i : Int64) : Value := .relation (.unit (.unit "x" (.int i)))
    let t : Tuple String Value := (TrieMap.unit "p" (held 1)).insert "q" (held 2)
    let rel : Relation String Value := .unit t
    rel.Reachable Value.BuiltTuple ∧
      ((rel.unnest (.unit "p")).unnest (.unit "q") ==
        (rel.unnest (.unit "q")).unnest (.unit "p")) = false := by
  intro held t rel
  have law : LawfulOn fun _ : String => True := lawfulOn_true
  have lawTuple := Value.lawfulOn_builtTuple
  have hinner : ∀ i, Value.BuiltTuple (.unit "x" (.int i)) := fun i =>
    Value.builtTuple_unit "x" (.int i)
  have hheld : ∀ i, (held i).Built := fun i => Value.built_relation (.unit (hinner i))
  have hone := Value.builtTuple_unit "p" (hheld 1)
  have ht : Value.BuiltTuple t := hone.insert law trivial (hheld 2)
  have hwt := ht.wellFormed law
  have hwi := fun i => ((hinner i).wellFormed law).trie
  have hp : Relation.nested? "p" t = some (.unit (.unit "x" (.int 1))) := by
    rw [Relation.nested?_insert law (hone.wellFormed law).trie trivial trivial,
      TrieMap.unit, Relation.nested?_insert law TrieMap.wellFormed_empty trivial trivial]
    rfl
  have hq : Relation.nested? "q" t = some (.unit (.unit "x" (.int 2))) := by
    rw [Relation.nested?_insert law (hone.wellFormed law).trie trivial trivial]
    rfl
  have hx : ∀ i name, TrieMap.get? (TrieMap.unit "x" (Value.int i)) name =
      if name == "x" then some (.int i) else none := fun i name =>
    TrieMap.get?_unit law trivial trivial _
  have hlacks : ∀ i name, name ≠ "x" →
      TrieMap.contains (TrieMap.unit "x" (Value.int i)) name = false := by
    intro i name hname
    rw [TrieMap.contains, hx, if_neg (by simpa using hname)]
    rfl
  refine ⟨.unit ht, ?_⟩
  -- either order leaves one tuple, and the two differ under the shared attribute
  rw [Relation.unnest_unit, Relation.unnest_unit, Relation.unnest_unit, Relation.unnest_unit,
    Relation.unnestOne_unnestOne_unit law trivial trivial hwt.trie (hwi 1) (by decide)
      (hlacks 1 "q" (by decide)) hp hq,
    Relation.unnestOne_unnestOne_unit law trivial trivial hwt.trie (hwi 2) (by decide)
      (hlacks 2 "p" (by decide)) hq hp]
  have hput : ∀ {u : Tuple String Value} (name : String) (i : Int64), Value.BuiltTuple u →
      Value.BuiltTuple ((TrieMap.erase u name).update (.unit "x" (.int i))) :=
    fun _ i hu => (hu.erase law trivial).update law (hinner i)
  have hab := hput "q" 2 (hput "p" 1 ht)
  have hba := hput "p" 1 (hput "q" 2 ht)
  rw [Bool.eq_false_iff, ne_eq, TrieSet.unit_beq_unit lawTuple hab hba,
    TrieMap.beq_iff_agree law (hab.wellFormed law) (hba.wellFormed law) Value.lawfulOn_built]
  intro hagree
  have hrel := hagree "x" trivial
  rw [Relation.get?_update_erase_twice law trivial trivial hwt.trie (hwi 1) (hwi 2)
      (hlacks 1 "q" (by decide)) trivial,
    Relation.get?_update_erase_twice law trivial trivial hwt.trie (hwi 2) (hwi 1)
      (hlacks 2 "p" (by decide)) trivial, hx, hx] at hrel
  cases hrel with
  | some heq =>
    rw [Value.beq_eq, Value.beq] at heq
    exact absurd heq (by decide)

end TrieCollections
